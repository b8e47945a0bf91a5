import JsonAssert.Proofs.Assertion.Validity

/-! The log of a generation. The decoder is heard first; then, if all goes well, there is a record
for each line, in the order of the lines, and else nothing more. -/
namespace JsonAssert
open Json Script

namespace Source

/-- The decoder that the first mark of a source chooses. -/
def decoderName (source : Source) : String :=
  if source.isArray then "decode_array" else "decode_object"

/-- What is logged of a source before it is read. -/
def announcement (source : Source) : LogRecord :=
  ⟨.decoder, s!"{source.decoderName}: {source.length} chars"⟩

end Source

theorem log_decodeWith {α : Type} (name : String) (accept : Data → Except Mismatch α)
    (source : Source) :
    (decodeWith name accept source).log = [⟨.decoder, s!"{name}: {source.length} chars"⟩] := by
  unfold decodeWith Traced.record Traced.ofExcept
  cases source.parse <;> rfl

theorem log_decode (source : Source) : (decode source).log = [source.announcement] := by
  unfold decode Source.announcement Source.decoderName
  split_ifs
  · exact log_decodeWith "decode_array" Data.asRecords source
  · have hlog := log_decodeWith "decode_object" Data.asRecord source
    rw [← decodeObject] at hlog
    rcases hobject : decodeObject source with ⟨log, e | record⟩
    · simpa [hobject] using hlog
    · simpa [hobject] using hlog

theorem log_generateFrom (source : Source) (root : String) :
    (generateFrom source root).log = source.announcement ::
      match (decode source).outcome with
      | .error _ => []
      | .ok records => (generateAssertions (records.map .dict) source.isArray root).log := by
  have hlog := log_decode source
  unfold generateFrom
  rcases hdecode : decode source with ⟨log, e | records⟩
  · simpa [hdecode, Traced.mapError, Except.mapError] using hlog
  · obtain rfl : log = [source.announcement] := by simpa [hdecode] using hlog
    simp [Traced.mapError, Except.mapError]

/-- A value is logged line by line, each record after the one before it. -/
theorem log_generateAssertions_data (records : List Value) (isList : Bool) (root : String) :
    (generateAssertions (records.map Value.data) isList root).log =
      ((valueTargets records isList root).flatMap Value.lines).map (⟨.generator, ·⟩) := by
  rw [generateAssertions, Traced.map_eq, targets_map_data, linesOfRecords_data]

/-- Where there is code, all its lines are logged, and no line of it has a control character. -/
theorem exists_loggedLines {source : Source} {root code : String} (hroot : IsName root)
    (h : (generateFrom source root).outcome = .ok code) :
    ∃ lines, code = unlines lines ∧ (∀ line ∈ lines, IsPrinted line.toList) ∧
      (generateFrom source root).log = source.announcement :: lines.map (⟨.generator, ·⟩) := by
  cases hdecode : (decode source).outcome with
  | error e => simp [outcome_generateFrom, hdecode] at h
  | ok records =>
    obtain ⟨d, hparse, hrecords⟩ := exists_document hdecode
    have hjson := Source.isJson_of_parse hparse
    obtain ⟨v, values, rfl, hvalues, hlines⟩ :=
      exists_documentValues hjson.isWellFormed hrecords root
    refine ⟨Value.documentLines (root, v), ?_, ?_, ?_⟩
    · rw [outcome_generateFrom_of_parse hparse, hrecords] at h
      simp only [← hvalues, generateAssertions_data, hlines] at h
      exact (Except.ok.inj h).symm
    · intro line hline
      have hmem := Value.mem_lines_of_mem_documentLines hline
      exact Value.isPrinted_of_mem_lines hroot hmem
    · rw [log_generateFrom, hdecode, Source.isArray_eq_isList hparse, ← hlines]
      simp only [← hvalues, log_generateAssertions_data]

theorem Source.isPrinted_announcement (source : Source) :
    IsPrinted source.announcement.message.toList := by
  have hname : IsPrinted source.decoderName.toList := by
    unfold decoderName
    split_ifs <;> exact isPrinted_ofList (by decide)
  exact hname.word (by decide) |>.count _ |>.word (by decide)

theorem LogRecord.isPrinted_line {r : LogRecord} (h : IsPrinted r.message.toList) :
    IsPrinted r.line.toList := by
  have horigin : IsPrinted r.origin.name.toList := by
    cases r.origin <;> exact isPrinted_ofList (by decide)
  exact isPrinted_ofList (by decide) |>.append horigin |>.word (by decide) |>.append h

/-- Each record of a generation stands on one line, also of one that fails. -/
theorem isPrinted_of_mem_log {source : Source} {root : String} (hroot : IsName root)
    {r : LogRecord} (hr : r ∈ (generateFrom source root).log) : IsPrinted r.line.toList := by
  apply LogRecord.isPrinted_line
  cases houtcome : (generateFrom source root).outcome with
  | ok code =>
    obtain ⟨lines, -, hprinted, hlog⟩ := exists_loggedLines hroot houtcome
    rw [hlog, List.mem_cons] at hr
    rcases hr with rfl | hr
    · exact source.isPrinted_announcement
    · obtain ⟨line, hline, rfl⟩ := List.mem_map.mp hr
      exact hprinted line hline
  | error e =>
    cases e with
    | decode e =>
      rw [log_generateFrom, outcome_decode_of_generateFrom houtcome] at hr
      rw [List.mem_singleton.mp hr]
      exact source.isPrinted_announcement
    | notJson e => exact absurd houtcome (generateFrom_ne_notJson source root e)

end JsonAssert
