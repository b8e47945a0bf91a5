import JsonAssert.Proofs.Assertion.Emission
import JsonAssert.Proofs.Assertion.Trace
import JsonAssert.Proofs.Raw.Records
import JsonAssert.Proofs.Value.Structural

/-! The log keeps step with the lines. Records are converted one by one, each as a whole before its
first line, so a record that is no JSON data leaves the lines of those before it and none of its
own; a record that cannot be written leaves those lines of its own that it had until then. What is
read from a source is always converted and written. -/
namespace JsonAssert

/-- The value of a record, with the expression that leads to it. -/
structure IsConverted (record : String × Data) (entry : String × Value) : Prop where
  target : entry.1 = record.1
  value : record.2.toValue = .ok entry.2

/-! Records -/

theorem eq_map_of_isConverted {todo : List (String × Data)} {values : List (String × Value)}
    (h : List.Forall₂ IsConverted todo values) :
    todo = values.map fun e => (e.1, e.2.data) := by
  induction h with
  | nil => rfl
  | cons hentry _ ih =>
    rw [List.map_cons, ← ih, hentry.target, Data.toValue_eq_ok_iff.mp hentry.value]

theorem exists_isConverted {todo : List (String × Data)}
    (h : ∀ record ∈ todo, ∃ v, record.2.toValue = .ok v) :
    ∃ values, List.Forall₂ IsConverted todo values := by
  choose! f hf using h
  refine ⟨todo.map fun record => (record.1, f record), ?_⟩
  rw [List.forall₂_map_right_iff, List.forall₂_same]
  exact fun record hrecord => ⟨rfl, hf record hrecord⟩

/-! Targets -/

section
variable {records : List Data} {isList : Bool} {root : String}

theorem exists_isConverted_targets (h : ∀ d ∈ records, ∃ v, d.toValue = .ok v) (isList : Bool)
    (root : String) : ∃ values, List.Forall₂ IsConverted (targets records isList root) values := by
  refine exists_isConverted fun record hrecord => h _ ?_
  rw [← map_snd_targets records isList root]
  exact List.mem_map_of_mem hrecord

theorem generateAssertions_of_isConverted {values : List (String × Value)}
    (h : List.Forall₂ IsConverted (targets records isList root) values) :
    generateAssertions records isList root =
      ⟨(values.flatMap Value.lines).map (⟨.generator, ·⟩),
        .ok (unlines (values.flatMap Value.lines))⟩ := by
  rw [generateAssertions, eq_map_of_isConverted h, linesOfRecords_data]
  rfl

end

/-! Sources -/

/-- Lines are joined with line feeds, and the last one has its own. -/
theorem unlines_eq_intercalate (lines : List String) :
    unlines lines = if lines = [] then "" else "\n".intercalate lines ++ "\n" := by
  induction lines with
  | nil => rfl
  | cons line lines ih =>
    have hcons : unlines (line :: lines) = line ++ "\n" ++ unlines lines := by
      rw [unlines, List.map_cons, String.join_cons]
      rfl
    rw [hcons, ih, if_neg (List.cons_ne_nil line lines)]
    cases lines with
    | nil => simp
    | cons line' lines =>
      rw [if_neg (List.cons_ne_nil line' lines), String.intercalate_cons_cons]
      simp only [String.append_assoc]

theorem generateFrom_of_error {source : Source} {e : DecodeError}
    (h : (decode source).outcome = .error e) (root : String) :
    generateFrom source root = ⟨[source.announcement], .error (.decode e)⟩ := by
  have hlog := log_generateFrom source root
  have houtcome := outcome_generateFrom source root
  rw [h] at hlog houtcome
  exact congrArg₂ Traced.mk hlog houtcome

/-- What is read of a source is JSON data, its numbers within 64 bits. -/
theorem isJson_of_decode {source : Source} {records : List Record}
    (h : (decode source).outcome = .ok records) {r : Record} (hr : r ∈ records) :
    ∃ depth, (Data.dict r).IsJson depth := by
  obtain ⟨d, hparse, hrecords⟩ := exists_document h
  have hjson := Source.isJson_of_parse hparse
  rcases Data.asDocument_eq_ok_iff.mp hrecords with rfl | ⟨record, rfl, rfl⟩
  · cases hjson with
    | list hitems => exact ⟨_, hitems _ (List.mem_map_of_mem hr)⟩
  · rw [List.mem_singleton.mp hr]
    exact ⟨_, hjson⟩

theorem generateFrom_of_records {source : Source} {records : List Record}
    {values : List (String × Value)} {root : String} (h : (decode source).outcome = .ok records)
    (hvalues : List.Forall₂ IsConverted (targets (records.map .dict) source.isArray root) values) :
    generateFrom source root =
      ⟨source.announcement :: (values.flatMap Value.lines).map (⟨.generator, ·⟩),
        .ok (unlines (values.flatMap Value.lines))⟩ := by
  have hlog := log_generateFrom source root
  have houtcome := outcome_generateFrom source root
  rw [h] at hlog houtcome
  simp only [generateAssertions_of_isConverted hvalues] at hlog houtcome
  exact congrArg₂ Traced.mk hlog houtcome

theorem toValue_of_isJson {d : Data} {depth : ℕ} (h : d.IsJson depth) : ∃ v, d.toValue = .ok v := by
  obtain ⟨v, rfl⟩ := h.isWellFormed.exists_value
  exact ⟨v, toValue_data v⟩

/-- The records of a source have lines, at least one each. -/
theorem lines_eq_nil_iff {records : List Data} {isList : Bool} {root : String}
    {values : List (String × Value)}
    (h : List.Forall₂ IsConverted (targets records isList root) values) :
    values.flatMap Value.lines = [] ↔ records = [] := by
  have hlength : values.length = records.length := by
    rw [← h.length_eq, ← List.length_map (f := (·.2)), map_snd_targets]
  rw [Value.flatMap_lines_eq_nil_iff, ← List.length_eq_zero_iff, hlength, List.length_eq_zero_iff]

/-- A source is announced first. If it cannot be read, nothing more is logged, and else every line
of the code is, one by one, and nothing that was read is left without lines. Records from elsewhere
are given up at the first that is no JSON data, with the lines of all before it; but if one of
these has a text or a key that cannot be written, then they are given up there. -/
theorem generation_log_faithful (root : String) :
    (∀ source,
      (∃ e, (decode source).outcome = .error e ∧
        generateFrom source root = ⟨[source.announcement], .error (.decode e)⟩) ∨
      ∃ records values lines, (decode source).outcome = .ok records ∧
        (∀ r ∈ records, ∃ depth, (Data.dict r).IsJson depth) ∧
        List.Forall₂ IsConverted (targets (records.map .dict) source.isArray root) values ∧
        lines = values.flatMap Value.lines ∧
        generateFrom source root = ⟨source.announcement :: lines.map (⟨.generator, ·⟩),
          .ok (if records = [] then "" else "\n".intercalate lines ++ "\n")⟩) ∧
      ∀ (records : List (Raw.Data String)) isList k e, (_ : k < records.length) →
        (∀ d ∈ records.take k, ∃ v, d.toValue = .ok v) → records[k].toValue = .error e →
        ∃ values, List.Forall₂ Raw.IsConverted (targets (records.take k) isList root) values ∧
          ((∀ d ∈ records.take k, Raw.IsWritable d) →
            Raw.generateAssertions records isList root =
              ⟨(values.flatMap Raw.lines).map (⟨.generator, ·⟩), .error (.notJson e)⟩) ∧
          ((¬ ∀ d ∈ records.take k, Raw.IsWritable d) → ∃ u,
            (Raw.emissionOf values).complaint? = some u ∧
            Raw.generateAssertions records isList root =
              ⟨(Raw.emissionOf values).lines.map (⟨.generator, ·⟩), .error (.unwritable u)⟩) := by
  constructor
  · intro source
    cases hdecode : (decode source).outcome with
    | error e => exact .inl ⟨e, rfl, generateFrom_of_error hdecode root⟩
    | ok records =>
      have hjson : ∀ r ∈ records, ∃ depth, (Data.dict r).IsJson depth :=
        fun r hr => isJson_of_decode hdecode hr
      have hconvert : ∀ d ∈ records.map Data.dict, ∃ v, d.toValue = .ok v := by
        intro d hd
        obtain ⟨r, hr, rfl⟩ := List.mem_map.mp hd
        obtain ⟨depth, hdepth⟩ := hjson r hr
        exact toValue_of_isJson hdepth
      obtain ⟨values, hvalues⟩ := exists_isConverted_targets hconvert source.isArray root
      have hnil : values.flatMap Value.lines = [] ↔ records = [] := by
        rw [lines_eq_nil_iff hvalues, List.map_eq_nil_iff]
      refine .inr ⟨records, values, _, rfl, hjson, hvalues, rfl, ?_⟩
      rw [generateFrom_of_records hdecode hvalues, unlines_eq_intercalate]
      simp only [hnil]
  · intro records isList k e hk hbefore herror
    obtain ⟨f, hf⟩ := Raw.exists_toValue hbefore
    have hvalues := Raw.isConverted_targets hf isList root
    have hwritable := Raw.complaint?_eq_none_iff hvalues
    have hgenerate := Raw.generateAssertions_of_error hvalues herror (records.drop (k + 1))
    rw [← List.drop_eq_getElem_cons hk, List.take_append_drop] at hgenerate
    refine ⟨_, hvalues, fun hall => ?_, fun hnot => ?_⟩
    · have hnone := hwritable.mpr hall
      rw [hgenerate, hnone, Raw.lines_emissionOf hnone]
      rfl
    · obtain ⟨u, hu⟩ := Option.ne_none_iff_exists'.mp (mt hwritable.mp hnot)
      exact ⟨u, hu, by rw [hgenerate, hu]; rfl⟩

/-- The second record has a line in front of its set, and does not log it. -/
theorem generation_log_faithful_setBehindLine :
    let d : Raw.Data String := .dict [(.text (.ofString "a"), .null)]
    let d' : Raw.Data String := .dict [(.text (.ofString "b"), .bool true),
      (.text (.ofString "c"), .list [.other "set"])]
    (∀ x ∈ [d, d', .other "tuple"].take 1, ∃ v, x.toValue = .ok v) ∧
      [d, d', .other "tuple"][1].toValue = .error ⟨"set"⟩ ∧
      (∀ x ∈ [d, d', .other "tuple"].take 1, Raw.IsWritable x) ∧
      Raw.generateAssertions [d, d', .other "tuple"] true "r" =
        ⟨[⟨.generator, "assert r[0][\"a\"] is None"⟩], .error (.notJson ⟨"set"⟩)⟩ := by
  intro d d'
  have hvalue : d.toValue = .ok (.dict [(.text (.ofString "a"), .null)]) := rfl
  have hbefore : ∀ x ∈ [d, d', .other "tuple"].take 1, ∃ v, x.toValue = .ok v := by
    intro x hx
    rw [List.mem_singleton.mp hx]
    exact ⟨_, hvalue⟩
  have herror : [d, d', .other "tuple"][1].toValue = .error ⟨"set"⟩ := rfl
  have hwritable : ∀ x ∈ [d, d', .other "tuple"].take 1, Raw.IsWritable x := by
    intro x hx
    rw [List.mem_singleton.mp hx]
    exact .dict (List.forall_mem_singleton.mpr ⟨_, rfl⟩) (List.forall_mem_singleton.mpr .null)
  obtain ⟨values, hvalues, hgenerate, -⟩ :=
    (generation_log_faithful "r").2 [d, d', .other "tuple"] true 1 ⟨"set"⟩ (by simp) hbefore herror
  refine ⟨hbefore, herror, hwritable, ?_⟩
  cases hvalues with
  | @cons _ entry _ _ hentry hrest =>
    cases hrest
    obtain ⟨target, v⟩ := entry
    obtain ⟨rfl, hv⟩ := hentry
    obtain rfl := Except.ok.inj (hvalue.symm.trans hv)
    rw [hgenerate hwritable]
    rfl

/-- A key of bytes, or a surrogate, in front of an object that is no JSON data. Each can be converted
and is complained of before the object is looked at, and no line of its own is logged. -/
theorem unwritableRecord_ends_log :
    let key : Raw.Data String := .dict [(.other (.error (.type "bytes")), .number (.int 1))]
    let text : Raw.Data String := .text [.surrogate 0]
    (∃ v, key.toValue = .ok v) ∧ (∃ v, text.toValue = .ok v) ∧
      (Raw.Data.other "object").toValue = .error ⟨"object"⟩ ∧
      Raw.generateAssertions [key, .other "object"] true "result" =
        ⟨[], .error (.unwritable (.type "bytes"))⟩ ∧
      Raw.generateAssertions [text, .other "object"] true "result" =
        ⟨[], .error (.unwritable .surrogate)⟩ := by
  intro key text
  have hobject : (Raw.Data.other "object").toValue = .error ⟨"object"⟩ := rfl
  have hkey : List.Forall₂ Raw.IsConverted (targets [key] true "result")
      [("result[0]", .dict [(.other (.error (.type "bytes")), .number (.int 1))])] :=
    .cons ⟨rfl, rfl⟩ .nil
  have htext : List.Forall₂ Raw.IsConverted (targets [text] true "result")
      [("result[0]", .text [.surrogate 0])] := .cons ⟨rfl, rfl⟩ .nil
  exact ⟨⟨_, rfl⟩, ⟨_, rfl⟩, hobject, Raw.generateAssertions_of_error hkey hobject [],
    Raw.generateAssertions_of_error htext hobject []⟩

end JsonAssert
