import JsonAssert.Proofs.Shape

/-! Decoding answers what the parser says. The mark that chooses the decoder is sought behind other
blanks than the parser knows, and still the choice decides nothing: a fault of the text is reported
as the parser reports it, and what is read is accepted or refused for its own shape. -/
namespace JsonAssert
open Json

/-! Answers -/

namespace DecodeError

/-- The text itself is at fault, in these words. -/
def IsFault (e : DecodeError) (message : String) : Prop :=
  (∃ report, e = .malformed report) ∧ e.message = message

/-- The data is of another kind than expected, in these words. -/
def IsMismatch (e : DecodeError) (expected actual message : String) : Prop :=
  ∃ m : Mismatch, e = .mismatch m ∧ m.expected = expected ∧ m.actual = actual ∧
    e.message = message

end DecodeError

/-- Data without a place for other data in it. -/
def Data.IsScalar : Data → Prop
  | .null | .bool _ | .number _ | .text _ => True
  | _ => False

def Data.IsRecord (d : Data) : Prop := ∃ entries, d = .dict entries

/-- The answer to what the parser makes of a source. An array is refused for the first of its
elements that is no object. -/
inductive Answers : Except Report Data → Except DecodeError (List Record) → Prop
  | fault {report : Report} {e : DecodeError} : e.IsFault ("invalid JSON: " ++ report.message) →
      Answers (.error report) (.error e)
  | object (entries : Record) : Answers (.ok (.dict entries)) (.ok [entries])
  | objects (records : List Record) : Answers (.ok (.list (records.map .dict))) (.ok records)
  | element {items : List Data} {i : ℕ} {d : Data} {e : DecodeError} : items[i]? = some d →
      ¬ d.IsRecord → (∀ j < i, ∃ x, items[j]? = some x ∧ x.IsRecord) →
      e.IsMismatch "object" d.kind s!"expected a JSON object at index {i}, got {d.kind}" →
      Answers (.ok (.list items)) (.error e)
  | scalar {d : Data} {e : DecodeError} : d.IsScalar →
      e.IsMismatch "object" d.kind ("expected a JSON object, got " ++ d.kind) →
      Answers (.ok d) (.error e)

/-! Elements -/

/-- Elements are refused for the first that is no record, counted on from the index. -/
theorem exists_element_of_recordsFrom {index : ℕ} {items : List Data} {m : Mismatch}
    (h : recordsFrom index items = .error m) :
    ∃ i d, items[i]? = some d ∧ ¬ d.IsRecord ∧
      (∀ j < i, ∃ x, items[j]? = some x ∧ x.IsRecord) ∧ m = .noObjectAt (index + i) d.kind := by
  induction items generalizing index with
  | nil => simp [recordsFrom] at h
  | cons d items ih =>
    by_cases hd : d.IsRecord
    · obtain ⟨entries, rfl⟩ := hd
      cases hmore : recordsFrom (index + 1) items with
      | ok records => simp [recordsFrom, hmore, Except.map] at h
      | error m' =>
        obtain rfl : m' = m := by simpa [recordsFrom, hmore, Except.map] using h
        obtain ⟨i, x, hx, hnone, hbefore, rfl⟩ := ih hmore
        refine ⟨i + 1, x, hx, hnone, ?_, by rw [Nat.add_assoc, Nat.add_comm 1 i]⟩
        rintro (_ | j) hj
        · exact ⟨.dict entries, rfl, entries, rfl⟩
        · exact hbefore j (by omega)
    · refine ⟨0, d, rfl, hd, by simp, ?_⟩
      unfold recordsFrom at h
      split at h
      · simp at h
      · next heq =>
        obtain ⟨rfl, -⟩ : _ ∧ _ := by simpa using heq
        exact absurd ⟨_, rfl⟩ hd
      · next heq =>
        obtain ⟨rfl, rfl⟩ : _ ∧ _ := by simpa using heq
        exact (Except.error.inj h).symm

theorem answers_list (items : List Data) :
    Answers (.ok (.list items)) ((Data.list items).asDocument.mapError .mismatch) := by
  show Answers _ ((recordsFrom 0 items).mapError .mismatch)
  cases hrecords : recordsFrom 0 items with
  | ok records =>
    obtain rfl := recordsFrom_eq_ok_iff.mp hrecords
    exact .objects records
  | error m =>
    obtain ⟨i, d, hd, hnone, hbefore, rfl⟩ := exists_element_of_recordsFrom hrecords
    rw [Nat.zero_add]
    exact .element hd hnone hbefore ⟨_, rfl, rfl, rfl, rfl⟩

/-- Data that was read has an answer for its shape. -/
theorem answers_asDocument {depth : ℕ} {d : Data} (h : d.IsJson depth) :
    Answers (.ok d) (d.asDocument.mapError .mismatch) := by
  cases h with
  | list _ => exact answers_list _
  | dict _ _ _ => exact .object _
  | _ => exact .scalar trivial ⟨_, rfl, rfl, rfl, rfl⟩

/-! Words -/

/-- Texts that differ within their first characters are different, however they go on. -/
theorem append_ne_append {a b : String} (n : ℕ)
    (h : n ≤ a.toList.length ∧ n ≤ b.toList.length ∧ a.toList.take n ≠ b.toList.take n)
    (x y : String) : a ++ x ≠ b ++ y := by
  obtain ⟨ha, hb, hne⟩ := h
  intro heq
  have hstart := congrArg (fun s : String => s.toList.take n) heq
  simp only [String.toList_append, List.take_append_of_le_length ha,
    List.take_append_of_le_length hb] at hstart
  exact hne hstart

theorem Data.kind_ne_array {d : Data} (h : d.IsScalar) : d.kind ≠ "array" := by
  cases d with
  | list _ => exact absurd h id
  | dict _ => exact absurd h id
  | other _ => exact absurd h id
  | _ => simp [kind]

/-- No answer misses an array, or finds one in place of the whole object. -/
theorem message_of_answers {parsed : Except Report Data} {e : DecodeError}
    (h : Answers parsed (.error e)) (kind : String) :
    e.message ≠ "expected a JSON array, got " ++ kind ∧
      e.message ≠ "expected a JSON object, got array" := by
  have hwords : "expected a JSON object, got array" = "expected a JSON object, got " ++ "array" :=
    rfl
  rw [hwords]
  cases h with
  | fault he =>
    rw [he.2]
    exact ⟨append_ne_append 1 (by decide) _ _,
      append_ne_append 1 (by decide) _ _⟩
  | @element items i d _ _ _ _ he =>
    obtain ⟨m, -, -, -, hmessage⟩ := he
    have hstart : e.message = "expected a JSON object at " ++
        ("index " ++ toString i ++ ", got " ++ d.kind) := by
      rw [hmessage]
      simp only [← String.append_assoc]
      rfl
    rw [hstart]
    exact ⟨append_ne_append 17 (by decide) _ _,
      append_ne_append 23 (by decide) _ _⟩
  | scalar hd he =>
    obtain ⟨m, -, -, -, hmessage⟩ := he
    rw [hmessage, ne_eq, ne_eq, String.append_right_inj]
    exact ⟨append_ne_append 17 (by decide) _ _, Data.kind_ne_array hd⟩

/-! Dispatch -/

/-- A bracket behind blanks chooses the decoder of arrays, whether or not the text goes on as one. -/
theorem isArray_of_unread :
    ¬ ((Source.text "  [").isArray = true ↔
      ∃ items, (Source.text "  [").parse = .ok (.list items)) := by
  have hparse : (Source.text "  [").parse = .error ⟨.endOfData, ⟨3, 1, 4⟩⟩ := rfl
  rw [hparse]
  simp [Source.isArray, Blank.character]

theorem answers_decode (source : Source) : Answers source.parse (decode source).outcome := by
  cases hparse : source.parse with
  | error report =>
    rw [outcome_decode_of_error hparse]
    exact .fault ⟨⟨report, rfl⟩, rfl⟩
  | ok d =>
    rw [outcome_decode_of_parse hparse]
    exact answers_asDocument (Source.isJson_of_parse hparse)

/-- Decoding answers what the parser says, whichever decoder was chosen, so no answer is about a
missing array or an array in place of an object. For the sources that are read, the first mark opens
an array exactly when the data is one. -/
theorem decode_answers (source : Source) :
    Answers source.parse (decode source).outcome ∧
      (∀ e, (decode source).outcome = .error e → ∀ kind,
        e.message ≠ "expected a JSON array, got " ++ kind ∧
          e.message ≠ "expected a JSON object, got array") ∧
      ∀ d, source.parse = .ok d → (source.isArray = true ↔ ∃ items, d = .list items) := by
  have hanswers := answers_decode source
  refine ⟨hanswers, ?_, fun d hparse => Source.isArray_iff hparse⟩
  intro e he
  rw [he] at hanswers
  exact message_of_answers hanswers

/-- An array whose second element is no object, behind a blank. -/
theorem decode_answers_secondElement :
    let source := Source.text " [\x7b\x7d,1]"
    let e : DecodeError := .mismatch (.noObjectAt 1 "number")
    (decode source).outcome = .error e ∧ e.message ≠ "expected a JSON array, got number" ∧
      source.parse = .ok (.list [.dict [], .number (.int 1)]) ∧
      (source.isArray = true ↔ ∃ items, Data.list [.dict [], .number (.int 1)] = .list items) := by
  intro source e
  have houtcome : (decode source).outcome = .error e := rfl
  have hparse : source.parse = .ok (.list [.dict [], .number (.int 1)]) := rfl
  obtain ⟨-, hmessage, harray⟩ := decode_answers source
  exact ⟨houtcome, (hmessage e houtcome "number").1, hparse, harray _ hparse⟩

end JsonAssert
