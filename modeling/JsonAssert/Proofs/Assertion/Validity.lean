import JsonAssert.Proofs.Assertion.Leaves
import JsonAssert.Proofs.Assertion.Lines
import JsonAssert.Proofs.Json.Writing

/-! Generated assertions hold: every line that is generated from a source is one statement about the
root, and it is true of the data of this source. -/
namespace JsonAssert

namespace Number

/-- A finite number equals itself. -/
theorem same_self {x : Number} (hx : x.IsFinite) : x.same x = true := by
  obtain ⟨m, hm⟩ := Option.isSome_iff_exists.mp hx
  rw [same, hm]
  exact beq_self_eq_true m

end Number

namespace Script

/-- What is asserted of a leaf holds of its data. -/
theorem holds?_data {l : Leaf} (hl : IsFiniteLeaf l) :
    (relationOf l).holds? l.data l = some true := by
  cases l with
  | bool b => simp [relationOf, Relation.holds?, identical?, Leaf.data]
  | number x =>
    have hsame := Number.same_self hl
    simp [relationOf, Relation.holds?, Leaf.data, Data.same, Data.number?, hsame]
  | text s => simp [relationOf, Relation.holds?, Leaf.data, Data.same]
  | _ => rfl

end Script
open Json Script

/-! Lines -/

/-- A line that is one assertion about a name, and true when the name stands for some data. -/
def Script.IsValid (name : String) (d : Data) (line : List Char) : Prop :=
  ∃ st, statement? line = some st ∧ st.name = name ∧ st.holds? d = some true

/-- The line of a leaf is true where the path leads to what the leaf stands for. -/
theorem Script.isValid_assertion {root : String} (hroot : IsName root) {path : List Key}
    (hpath : ∀ k ∈ path, IsStep k) {l : Leaf} (hl : IsFiniteLeaf l) {d : Data}
    (hat : Tree.at? path d = some l.data) :
    IsValid root d (l.assertion (path.foldl subscripted root)).toList := by
  refine ⟨_, statement?_assertion hroot hpath hl, rfl, ?_⟩
  simp only [Statement.holds?, hat]
  exact holds?_data hl

namespace Value

theorem exists_leaf_of_mem_lines {v : Value} {root line : String} (h : line ∈ lines (root, v)) :
    ∃ path l, (path, l) ∈ v.leaves ∧ l.assertion (path.foldl subscripted root) = line := by
  obtain ⟨⟨path, l⟩, hmem, rfl⟩ := List.mem_map.mp h
  exact ⟨path, l, hmem, rfl⟩

theorem isPrinted_of_mem_lines {v : Value} {root line : String} (hroot : IsName root)
    (hline : line ∈ lines (root, v)) : IsPrinted line.toList := by
  obtain ⟨path, l, -, rfl⟩ := exists_leaf_of_mem_lines hline
  exact isPrinted_assertion hroot path l

theorem isValid_of_mem_lines {depth : ℕ} {v : Value} (h : v.data.IsJson depth)
    {root line : String} (hroot : IsName root) (hline : line ∈ lines (root, v)) :
    IsValid root v.data line.toList := by
  obtain ⟨path, l, hmem, rfl⟩ := exists_leaf_of_mem_lines hline
  have hleaf := (mem_leaves_iff h.isWellFormed).mp hmem
  exact isValid_assertion hroot hleaf.1 (hleaf.isFiniteLeaf h.isWellFormed) hleaf.2

end Value

/-! Documents -/

/-- The lines of a document: those of its leaves, but none for a list without elements. -/
def Value.documentLines (e : String × Value) : List String :=
  match e.2 with
  | .list [] => []
  | _ => lines e

theorem Value.mem_lines_of_mem_documentLines {e : String × Value} {line : String}
    (h : line ∈ documentLines e) : line ∈ lines e := by
  unfold documentLines at h
  split at h
  · simp at h
  · exact h

/-- The lines of the elements, from their own expressions, are the lines of the list. -/
theorem flatMap_lines_list (items : List Value) (root : String) :
    (valueTargets items true root).flatMap Value.lines =
      Value.documentLines (root, .list items) := by
  cases items with
  | nil => rfl
  | cons v items =>
    have hbranch : (Value.list (v :: items)).leaf = .error .list := rfl
    have hlines : Value.documentLines (root, .list (v :: items)) =
        Value.lines (root, .list (v :: items)) := rfl
    rw [hlines, Value.lines_of_branch hbranch, ← valueTargets_list]

/-- The values of the records have, one after the other, the lines of the data as a whole. -/
theorem exists_documentValues {d : Data} {records : List Record} (h : d.IsWellFormed)
    (hrecords : d.asDocument = .ok records) (root : String) :
    ∃ (v : Value) (values : List Value), v.data = d ∧ values.map Value.data = records.map .dict ∧
      (valueTargets values d.isList root).flatMap Value.lines = Value.documentLines (root, v) := by
  obtain ⟨v, hv⟩ := h.exists_value
  rcases Data.asDocument_eq_ok_iff.mp hrecords with rfl | ⟨record, rfl, rfl⟩
  · cases v with
    | list items =>
      have hitems : items.map Value.data = records.map .dict := by
        rw [← Value.dataOfItems_eq_map]
        exact Data.list.inj hv
      exact ⟨.list items, items, hv, hitems, flatMap_lines_list items root⟩
    | _ => simp [Value.data] at hv
  · cases v with
    | dict entries =>
      exact ⟨.dict entries, [.dict entries], hv, by simp [hv], List.flatMap_singleton ..⟩
    | _ => simp [Value.data] at hv

/-- What is generated from a source that is read are the lines of its data as a whole. -/
theorem exists_documentLines {source : Source} {d : Data} {records : List Record}
    (h : source.parse = .ok d) (hrecords : d.asDocument = .ok records) (root : String) :
    ∃ v : Value, v.data = d ∧
      (generateFrom source root).outcome = .ok (unlines (Value.documentLines (root, v))) := by
  obtain ⟨v, values, hv, hvalues, hlines⟩ :=
    exists_documentValues (Source.isJson_of_parse h).isWellFormed hrecords root
  refine ⟨v, hv, ?_⟩
  rw [outcome_generateFrom_of_parse h, hrecords]
  simp only [← hvalues, generateAssertions_data, hlines]
  rfl

theorem exists_lines {source : Source} {d : Data} {records : List Record}
    (h : source.parse = .ok d) (hrecords : d.asDocument = .ok records) (root : String) :
    ∃ v lines, v.data = d ∧ (generateFrom source root).outcome = .ok (unlines lines) ∧
      ∀ line ∈ lines, line ∈ Value.lines (root, v) := by
  obtain ⟨v, hv, hcode⟩ := exists_documentLines h hrecords root
  exact ⟨v, _, hv, hcode, fun line hline => Value.mem_lines_of_mem_documentLines hline⟩

/-- What the root stands for: all the records of an array, else the first record. -/
def Source.document? (source : Source) (records : List Record) : Option Data :=
  if source.isArray then some (.list (records.map .dict)) else records.head?.map .dict

theorem Source.document?_of_parse {source : Source} {d : Data} {records : List Record}
    (h : source.parse = .ok d) (hrecords : d.asDocument = .ok records) :
    source.document? records = some d := by
  have hlist := isArray_iff h
  rcases Data.asDocument_eq_ok_iff.mp hrecords with rfl | ⟨record, rfl, rfl⟩
  · rw [document?, if_pos (hlist.mpr ⟨_, rfl⟩)]
  · rw [document?, if_neg (by simp [hlist])]
    rfl

/-- Every source that decodes has assertions. The text of these divides at its line feeds into
lines, each of which is one statement about the root that is true of the decoded data. -/
theorem generated_lines_hold {source : Source} {records : List Record} {root : String}
    (hroot : IsName root) (hdecode : (decode source).outcome = .ok records) :
    ∃ code lines d, (generateFrom source root).outcome = .ok code ∧
      code.toList.splitOn '\n' = lines ++ [[]] ∧ source.document? records = some d ∧
      ∀ line ∈ lines, IsValid root d line := by
  obtain ⟨d, hparse, hrecords⟩ := exists_document hdecode
  obtain ⟨v, lines, rfl, hcode, hlines⟩ := exists_lines hparse hrecords root
  have hjson := Source.isJson_of_parse hparse
  have hprinted : ∀ line ∈ lines, IsPrinted line.toList := by
    intro line hline
    exact Value.isPrinted_of_mem_lines hroot (hlines line hline)
  refine ⟨_, _, v.data, hcode, splitOn_unlines hprinted,
    Source.document?_of_parse hparse hrecords, ?_⟩
  intro line hline
  obtain ⟨line, hmem, rfl⟩ := List.mem_map.mp hline
  exact Value.isValid_of_mem_lines hjson hroot (hlines line hmem)

/-- An array of one object whose key is a line feed. -/
theorem generated_lines_hold_lineFeed :
    let record : Record := [(.text "\n", .number (.float (.zero true)))]
    let source := Source.text (.ofList (Data.list ([record].map .dict)).written)
    IsName "result" ∧ (decode source).outcome = .ok [record] ∧
      ∃ code lines d, (generateFrom source "result").outcome = .ok code ∧
        code.toList.splitOn '\n' = lines ++ [[]] ∧ source.document? [record] = some d ∧
        ∀ line ∈ lines, IsValid "result" d line := by
  intro record source
  have hzero : (Number.float (.zero true)).IsJson := .float _
  have hrecord : (Data.dict record).IsJson 1023 :=
    .dict (fun e he => ⟨"\n", by rw [List.mem_singleton.mp he]⟩) (List.nodup_singleton _)
      fun e he => by
        rw [List.mem_singleton.mp he]
        exact .number hzero
  have hjson : (Data.list ([record].map .dict)).IsJson maxDepth :=
    .list fun d hd => by
      rw [List.mem_singleton.mp hd]
      exact hrecord
  have hparse : source.parse = .ok (.list ([record].map .dict)) := by
    rw [Source.parse_text, String.toList_ofList]
    exact hjson.parse_written
  have hdecode : (decode source).outcome = .ok [record] := outcome_decode_of_parse hparse
  have hroot : IsName "result" := by decide
  exact ⟨hroot, hdecode, generated_lines_hold hroot hdecode⟩

end JsonAssert
