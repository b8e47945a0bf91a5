import JsonAssert.Proofs.Raw.Records
import JsonAssert.Proofs.Value.Structural

/-! Data of a reader. All of its texts and keys can be written, and what is generated for it as data
from elsewhere is what is generated for it. -/
namespace JsonAssert.Raw

/-! Conversion -/

mutual
/-- A value of a reader's data. -/
def ofValue : JsonAssert.Value → Value
  | .null => .null
  | .bool b => .bool b
  | .number n => .number n
  | .text s => .text (.ofString s)
  | .list items => .list (ofValues items)
  | .dict entries => .dict (ofValueEntries entries)

def ofValues : List JsonAssert.Value → List Value
  | [] => []
  | v :: items => ofValue v :: ofValues items

def ofValueEntries : List (JsonAssert.Key × JsonAssert.Value) → List (Key × Value)
  | [] => []
  | (k, v) :: entries => (.ofKey k, ofValue v) :: ofValueEntries entries
end

mutual
/-- Data of a reader has the value that it is converted to as such, or the same complaint. -/
theorem toValue_ofData : ∀ d : JsonAssert.Data,
    (Data.ofData d).toValue =
      match d.foreign? with
      | some e => .error e
      | none => .ok (ofValue d.asValue)
  | .null => rfl
  | .bool _ => rfl
  | .number _ => rfl
  | .text _ => rfl
  | .other _ => rfl
  | .list items => by
    have hforeign : (JsonAssert.Data.list items).foreign? =
      (JsonAssert.Data.nodesOfItems items).findSome? JsonAssert.Data.notJson? := rfl
    rw [Data.ofData, Data.toValue, valuesOfItems_ofItems items, hforeign]
    cases List.findSome? JsonAssert.Data.notJson? (JsonAssert.Data.nodesOfItems items) <;> rfl
  | .dict entries => by
    have hforeign : (JsonAssert.Data.dict entries).foreign? =
      (JsonAssert.Data.nodesOfEntries entries).findSome? JsonAssert.Data.notJson? := rfl
    rw [Data.ofData, Data.toValue, valuesOfEntries_ofEntries entries, hforeign]
    cases List.findSome? JsonAssert.Data.notJson? (JsonAssert.Data.nodesOfEntries entries) <;> rfl

theorem valuesOfItems_ofItems : ∀ items : List JsonAssert.Data,
    valuesOfItems (ofItems items) =
      match (JsonAssert.Data.nodesOfItems items).findSome? JsonAssert.Data.notJson? with
      | some e => .error e
      | none => .ok (ofValues (JsonAssert.Data.valuesOfItems items))
  | [] => rfl
  | d :: items => by
    rw [ofItems, valuesOfItems, toValue_ofData d, valuesOfItems_ofItems items,
      JsonAssert.Data.nodesOfItems, List.findSome?_append, ← JsonAssert.Data.foreign?]
    cases d.foreign? with
    | some e => rfl
    | none =>
      cases List.findSome? JsonAssert.Data.notJson? (JsonAssert.Data.nodesOfItems items) <;> rfl

theorem valuesOfEntries_ofEntries : ∀ entries : List (JsonAssert.Key × JsonAssert.Data),
    valuesOfEntries (ofEntries entries) =
      match (JsonAssert.Data.nodesOfEntries entries).findSome? JsonAssert.Data.notJson? with
      | some e => .error e
      | none => .ok (ofValueEntries (JsonAssert.Data.valuesOfEntries entries))
  | [] => rfl
  | (k, d) :: entries => by
    rw [ofEntries, valuesOfEntries, toValue_ofData d, valuesOfEntries_ofEntries entries,
      JsonAssert.Data.nodesOfEntries, List.findSome?_append, ← JsonAssert.Data.foreign?]
    cases d.foreign? with
    | some e => rfl
    | none =>
      cases List.findSome? JsonAssert.Data.notJson? (JsonAssert.Data.nodesOfEntries entries) <;> rfl
end

/-! Texts and keys -/

theorem string_ofString (s : String) : (Text.ofString s).string = .ok s := by
  have hchars (chars : List Char) :
      (chars.map CodePoint.character).mapM CodePoint.character? = .ok chars := by
    induction chars with
    | nil => rfl
    | cons c chars ih =>
      rw [List.map_cons, List.mapM_cons, ih]
      rfl
  rw [Text.string, Text.ofString, hchars, Except.map, String.ofList_toList]

theorem subscript_ofKey (k : JsonAssert.Key) : (Key.ofKey k).subscript = .ok k.subscript := by
  cases k with
  | text s =>
    rw [Key.ofKey, Key.subscript, string_ofString]
    rfl
  | int n => rfl
  | bool b => rfl

theorem subscripted_ofKey (target : String) (k : JsonAssert.Key) :
    subscripted target (.ofKey k) = .ok (JsonAssert.subscripted target k) := by
  rw [subscripted, subscript_ofKey]
  rfl

mutual
theorem isWritable_ofData : ∀ d : JsonAssert.Data, IsWritable (Data.ofData d)
  | .null => .null
  | .bool b => .bool b
  | .number n => .number n
  | .text s => .text (string_ofString s)
  | .list items => .list (isWritable_of_mem_ofItems items)
  | .dict entries =>
    .dict (fun e he => (isWritable_of_mem_ofEntries entries e he).1)
      fun e he => (isWritable_of_mem_ofEntries entries e he).2
  | .other typeName => .other typeName

theorem isWritable_of_mem_ofItems : ∀ items : List JsonAssert.Data,
    ∀ d ∈ ofItems items, IsWritable d
  | [] => List.forall_mem_nil _
  | d :: items =>
    List.forall_mem_cons.mpr ⟨isWritable_ofData d, isWritable_of_mem_ofItems items⟩

theorem isWritable_of_mem_ofEntries : ∀ entries : List (JsonAssert.Key × JsonAssert.Data),
    ∀ e ∈ ofEntries entries, (∃ s, e.1.subscript = .ok s) ∧ IsWritable e.2
  | [] => List.forall_mem_nil _
  | (k, d) :: entries =>
    List.forall_mem_cons.mpr
      ⟨⟨⟨_, subscript_ofKey k⟩, isWritable_ofData d⟩, isWritable_of_mem_ofEntries entries⟩
end

/-! The walk -/

/-- A value of a reader's data, and the expression that leads to it. -/
def ofEntry (entry : String × JsonAssert.Value) : String × Value := (entry.1, ofValue entry.2)

theorem ofValues_eq_map (items : List JsonAssert.Value) : ofValues items = items.map ofValue := by
  induction items with
  | nil => rfl
  | cons v items ih => rw [ofValues, ih, List.map_cons]

theorem entryTargets_ofValueEntries (target : String)
    (entries : List (JsonAssert.Key × JsonAssert.Value)) :
    entryTargets target (ofValueEntries entries) =
      .ok (entries.map fun (k, v) => (JsonAssert.subscripted target k, ofValue v)) := by
  induction entries with
  | nil => rfl
  | cons e entries ih =>
    obtain ⟨k, v⟩ := e
    rw [ofValueEntries, entryTargets, ih, subscripted_ofKey]
    rfl

/-- A round on a value of a reader's data does what the worklist does with it. -/
theorem round_ofValue (target : String) (v : JsonAssert.Value) :
    round target (ofValue v) =
      match v.leaf with
      | .ok l => .ok (.line (l.assertion target))
      | .error _ => .ok (.below (((Tree.children v).map fun (k, child) =>
          (JsonAssert.subscripted target k, child)).map ofEntry)) := by
  cases v with
  | text s =>
    rw [ofValue, round, string_ofString]
    rfl
  | list items =>
    cases items with
    | nil => rfl
    | cons v items =>
      have hchildren : (Tree.children (JsonAssert.Value.list (v :: items))).map
          (fun (k, child) => (JsonAssert.subscripted target k, child)) =
          targets (v :: items) true target := by
        rw [targets, if_pos rfl]
        exact List.map_map
      rw [hchildren, ofValue, ofValues_eq_map, List.map_cons, round_list_cons, ← List.map_cons,
        targets_map]
      rfl
  | dict entries =>
    cases entries with
    | nil => rfl
    | cons e entries =>
      obtain ⟨k, v⟩ := e
      rw [ofValue, ofValueEntries, round_dict_cons, ← ofValueEntries, entryTargets_ofValueEntries]
      simp only [Except.map, JsonAssert.Value.leaf, List.map_map]
      rfl
  | _ => rfl

theorem walk_ofEntry (todo : List (String × JsonAssert.Value)) :
    walk (todo.map ofEntry) =
      ⟨(assertionLines todo).map (⟨.generator, ·⟩), .ok (assertionLines todo)⟩ := by
  induction todo using assertionLines.induct with
  | case1 =>
    rw [List.map_nil, walk, assertionLines]
    rfl
  | case2 target v rest l hleaf ih =>
    rw [List.map_cons, ofEntry, walk_cons, round_ofValue, hleaf, assertionLines, hleaf]
    simp [ih, Traced.record, Except.map]
  | case3 target v rest e hleaf children ih =>
    rw [List.map_append] at ih
    rw [List.map_cons, ofEntry, walk_cons, round_ofValue, hleaf, assertionLines, hleaf]
    exact ih

/-! Records -/

theorem linesOfRecords_ofData (todo : List (String × JsonAssert.Data)) :
    linesOfRecords (todo.map fun record => (record.1, .ofData record.2)) =
      (JsonAssert.linesOfRecords todo).mapError .notJson := by
  induction todo with
  | nil => rfl
  | cons record todo ih =>
    obtain ⟨target, d⟩ := record
    rw [List.map_cons, linesOfRecords, JsonAssert.linesOfRecords, toValue_ofData, ih]
    cases hforeign : d.foreign? with
    | some e =>
      rw [(JsonAssert.Data.toValue_eq_error_iff d e).mpr hforeign]
      rfl
    | none =>
      have hwalk := walk_ofEntry [(target, d.asValue)]
      rw [List.map_singleton, ofEntry] at hwalk
      rw [JsonAssert.Data.toValue_of_json hforeign]
      simp only [Traced.ofExcept, Except.mapError, Traced.bind_ok, hwalk]
      cases hlines : (JsonAssert.linesOfRecords todo).outcome <;>
        simp [Traced.mapError, Traced.record, Except.mapError, Except.map, hlines]

/-- Assertions for a reader's data are generated in the same way, and with the same log, when it is
taken for data from elsewhere. -/
theorem generateAssertions_ofData (records : List JsonAssert.Data) (isList : Bool) (root : String) :
    generateAssertions (records.map .ofData) isList root =
      (JsonAssert.generateAssertions records isList root).mapError .notJson := by
  rw [generateAssertions, targets_map, linesOfRecords_ofData, JsonAssert.generateAssertions]
  cases hlines : (JsonAssert.linesOfRecords (targets records isList root)).outcome <;>
    simp [Traced.mapError, Except.mapError, Except.map, hlines]

end JsonAssert.Raw
