import JsonAssert.Proofs.Json.Acceptance

/-! What decoding comes to: a fault of the text itself where the text is not accepted, and else what
the shape of its data allows. -/
namespace JsonAssert

namespace Source

theorem parse_text (s : String) : (text s).parse = Json.parse s.toList := rfl

theorem parse_bytes {b : List UInt8} {s : List Char} (h : Utf8.decode b = .ok s) :
    (bytes b).parse = Json.parse s := by
  simp only [parse, characters, h]

theorem parse_bytes_of_error {b : List UInt8} {m : Utf8.Malformed}
    (h : Utf8.decode b = .error m) : (bytes b).parse = .error ⟨.invalidUtf8, .at [] 0⟩ := by
  simp only [parse, characters, h]

end Source

/-- The text itself is at fault, not the shape of its data. -/
def Traced.IsMalformed {α : Type} (x : Traced DecodeError α) : Prop :=
  ∃ report, x.outcome = .error (.malformed report)

theorem outcome_decodeWith {α : Type} (name : String) (accept : Data → Except Mismatch α)
    (source : Source) :
    (decodeWith name accept source).outcome =
      match source.parse with
      | .error report => .error (.malformed report)
      | .ok d => (accept d).mapError .mismatch := by
  unfold decodeWith Traced.record Traced.ofExcept
  cases source.parse <;> rfl

theorem outcome_decode (source : Source) :
    (decode source).outcome =
      if source.isArray then (decodeArray source).outcome
      else (decodeObject source).outcome.map ([·]) := by
  unfold decode
  split_ifs
  · rfl
  · rcases decodeObject source with ⟨log, _ | _⟩ <;> rfl

theorem isMalformed_decodeWith_iff {α : Type} (name : String) (accept : Data → Except Mismatch α)
    (source : Source) :
    (decodeWith name accept source).IsMalformed ↔ ¬ ∃ d, source.parse = .ok d := by
  unfold Traced.IsMalformed
  rw [outcome_decodeWith]
  cases source.parse with
  | error report => simp
  | ok d => cases haccept : accept d <;> simp [Except.mapError, haccept]

theorem isMalformed_decode_iff (source : Source) :
    (decode source).IsMalformed ↔ ¬ ∃ d, source.parse = .ok d := by
  have hobject := isMalformed_decodeWith_iff "decode_object" Data.asRecord source
  have harray := isMalformed_decodeWith_iff "decode_array" Data.asRecords source
  unfold Traced.IsMalformed at hobject harray ⊢
  rw [outcome_decode]
  split_ifs
  · exact harray
  · rw [← hobject, ← decodeObject]
    cases (decodeObject source).outcome <;> simp [Except.map]

/-- Whatever it is decoded as, the text itself is at fault. -/
structure Source.IsUndecodable (source : Source) : Prop where
  decode : (decode source).IsMalformed
  object : (decodeObject source).IsMalformed
  array : (decodeArray source).IsMalformed

theorem Source.isUndecodable_iff (source : Source) :
    source.IsUndecodable ↔ ¬ ∃ d, source.parse = .ok d := by
  have hobject := isMalformed_decodeWith_iff "decode_object" Data.asRecord source
  have harray := isMalformed_decodeWith_iff "decode_array" Data.asRecords source
  constructor
  · intro h
    exact (isMalformed_decode_iff source).mp h.decode
  · intro h
    exact ⟨(isMalformed_decode_iff source).mpr h, hobject.mpr h, harray.mpr h⟩

/-! Records -/

theorem recordsFrom_map_dict (index : ℕ) (records : List Record) :
    recordsFrom index (records.map .dict) = .ok records := by
  induction records generalizing index with
  | nil => rfl
  | cons record records ih => simp [recordsFrom, ih, Except.map]

theorem eq_map_dict_of_recordsFrom {index : ℕ} {items : List Data} {records : List Record}
    (h : recordsFrom index items = .ok records) : items = records.map .dict := by
  induction items generalizing index records with
  | nil =>
    obtain rfl : [] = records := by simpa [recordsFrom] using h
    rfl
  | cons d items ih =>
    cases d with
    | dict entries =>
      cases hmore : recordsFrom (index + 1) items with
      | error m => simp [recordsFrom, hmore, Except.map] at h
      | ok more =>
        obtain rfl : entries :: more = records := by simpa [recordsFrom, hmore, Except.map] using h
        rw [ih hmore, List.map_cons]
    | _ => simp [recordsFrom] at h

theorem recordsFrom_eq_ok_iff {index : ℕ} {items : List Data} {records : List Record} :
    recordsFrom index items = .ok records ↔ items = records.map .dict := by
  refine ⟨eq_map_dict_of_recordsFrom, ?_⟩
  rintro rfl
  exact recordsFrom_map_dict index records

/-- The records of a whole document: those of a list, or the one that it is. -/
def Data.asDocument : Data → Except Mismatch (List Record)
  | .list items => Data.asRecords (.list items)
  | d => d.asRecord.map ([·])

/-- A list of records, or one record. -/
theorem Data.asDocument_eq_ok_iff {d : Data} {records : List Record} :
    d.asDocument = .ok records ↔
      d = .list (records.map .dict) ∨ ∃ record, records = [record] ∧ d = .dict record := by
  cases d with
  | list items => simp [asDocument, asRecords, recordsFrom_eq_ok_iff]
  | dict entries => simp [asDocument, asRecord, Except.map, eq_comm]
  | _ => simp [asDocument, asRecord, Except.map]

/-- A text is read exactly when it is acceptable, and whenever it is not, decoding in any shape
reports a fault of the text. -/
theorem text_read_iff_acceptable (text : String) :
    ((∃ d, (Source.text text).parse = .ok d) ↔ Json.IsAcceptable text.toList) ∧
      ((decodeObject (.text text)).IsMalformed ↔ ¬ Json.IsAcceptable text.toList) ∧
      ((decodeArray (.text text)).IsMalformed ↔ ¬ Json.IsAcceptable text.toList) ∧
      ((decode (.text text)).IsMalformed ↔ ¬ Json.IsAcceptable text.toList) := by
  have hparse : (∃ d, (Source.text text).parse = .ok d) ↔ Json.IsAcceptable text.toList :=
    (Json.isAcceptable_iff text.toList).symm
  refine ⟨hparse, ?_, ?_, ?_⟩
  · rw [← hparse]
    exact isMalformed_decodeWith_iff "decode_object" Data.asRecord _
  · rw [← hparse]
    exact isMalformed_decodeWith_iff "decode_array" Data.asRecords _
  · rw [← hparse]
    exact isMalformed_decode_iff _

end JsonAssert
