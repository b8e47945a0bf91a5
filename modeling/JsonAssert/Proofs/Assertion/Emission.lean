import JsonAssert.Proofs.Assertion.Leaves
import JsonAssert.Proofs.Assertion.Lines
import JsonAssert.Proofs.Value.Structure

/-! Generated text is emitted recursively: every container leaves the text to its children, and every
other node has one line. The worklist visits each node once and comes to the same text. -/
namespace JsonAssert
open Script

/-! Emission -/

namespace Value

mutual
/-- The text of a value that an expression leads to. -/
def emission (target : String) : Value → Except NoLiteral String
  | .list items =>
    if items.isEmpty then ((list items).assertion target).map (· ++ "\n")
    else emissionOfItems target 0 items
  | .dict entries =>
    if entries.isEmpty then ((dict entries).assertion target).map (· ++ "\n")
    else emissionOfEntries target entries
  | v => (v.assertion target).map (· ++ "\n")

def emissionOfItems (target : String) (index : ℕ) : List Value → Except NoLiteral String
  | [] => .ok ""
  | v :: items => do
    let text ← v.emission (subscripted target (.int index))
    (text ++ ·) <$> emissionOfItems target (index + 1) items

def emissionOfEntries (target : String) : List (Key × Value) → Except NoLiteral String
  | [] => .ok ""
  | (k, v) :: entries => do
    let text ← v.emission (subscripted target k)
    (text ++ ·) <$> emissionOfEntries target entries
end

theorem emission_of_leaf {v : Value} {l : Leaf} (h : v.leaf = .ok l) (target : String) :
    v.emission target = .ok (unlines (lines (target, v))) := by
  have hline : unlines (lines (target, v)) = l.assertion target ++ "\n" := by
    rw [lines, leaves_of_leaf h]
    simp [unlines]
  rw [hline, eq_value_of_leaf h]
  cases l <;> rfl

theorem emissionOfItems_eq {items : List Value}
    (h : ∀ v ∈ items, ∀ target, v.emission target = .ok (unlines (lines (target, v))))
    (target : String) (index : ℕ) :
    emissionOfItems target index items = .ok (unlines
      (((items.zipIdx index).map fun (v, i) => (subscripted target (.int i), v)).flatMap
        lines)) := by
  induction items generalizing index with
  | nil => rfl
  | cons v items ih =>
    obtain ⟨hv, hitems⟩ := List.forall_mem_cons.mp h
    rw [emissionOfItems, hv, ih hitems, List.zipIdx_cons, List.map_cons, List.flatMap_cons,
      unlines_append]
    rfl

theorem emissionOfEntries_eq {entries : List (Key × Value)}
    (h : ∀ e ∈ entries, ∀ target, e.2.emission target = .ok (unlines (lines (target, e.2))))
    (target : String) :
    emissionOfEntries target entries = .ok (unlines
      ((entries.map fun (k, v) => (subscripted target k, v)).flatMap lines)) := by
  induction entries with
  | nil => rfl
  | cons e entries ih =>
    obtain ⟨he, hentries⟩ := List.forall_mem_cons.mp h
    rw [emissionOfEntries, he, ih hentries, List.map_cons, List.flatMap_cons, unlines_append]
    rfl

/-- The text that is emitted for a value is that of its lines. -/
theorem emission_eq (v : Value) (target : String) :
    v.emission target = .ok (unlines (lines (target, v))) := by
  induction v using induction_children generalizing target with
  | node v ih =>
    cases hleaf : v.leaf with
    | ok l => exact emission_of_leaf hleaf target
    | error e =>
      rw [lines_of_branch hleaf]
      cases v with
      | list items =>
        cases items with
        | nil => cases hleaf
        | cons v items =>
          have hitems : ∀ w ∈ v :: items, ∀ target,
              w.emission target = .ok (unlines (lines (target, w))) := by
            intro w hw
            rw [← subvalues_list (v :: items)] at hw
            obtain ⟨child, hchild, rfl⟩ := List.mem_map.mp hw
            exact ih child hchild
          have hmap : (Tree.children (list (v :: items))).map
              (fun (k, child) => (subscripted target k, child)) =
              ((v :: items).zipIdx 0).map fun (v, i) => (subscripted target (.int i), v) :=
            List.map_map
          rw [hmap]
          exact emissionOfItems_eq hitems target 0
      | dict entries =>
        cases entries with
        | nil => cases hleaf
        | cons e entries => exact emissionOfEntries_eq ih target
      | _ => cases hleaf

end Value

/-! The worklist -/

namespace Emission

/-- One round of the loop. -/
def emit (entry : String × Value) (lines : List String) : Except NoLiteral (List String) :=
  if (Tree.children entry.2).isEmpty then
    (entry.2.assertion entry.1).map fun line => lines ++ [line]
  else .ok lines

/-- The children of a node with the expressions that lead to them. -/
def below (entry : String × Value) : List (String × Value) :=
  (Tree.children entry.2).map fun (k, child) => (subscripted entry.1 k, child)

theorem emit_of_leaf {v : Value} {l : Leaf} (h : v.leaf = .ok l) (target : String)
    (lines : List String) : emit (target, v) lines = .ok (lines ++ [l.assertion target]) := by
  rw [Value.eq_value_of_leaf h]
  cases l <;> rfl

theorem below_of_leaf {v : Value} {l : Leaf} (h : v.leaf = .ok l) (target : String) :
    below (target, v) = [] := by
  rw [Value.eq_value_of_leaf h]
  cases l <;> rfl

theorem emit_of_branch {v : Value} {e : NoLiteral} (h : v.leaf = .error e) (target : String)
    (lines : List String) : emit (target, v) lines = .ok lines := by
  rw [emit, if_neg]
  simpa using Value.children_ne_nil h

/-- The loop never fails, and puts the lines of the worklist behind those from before. -/
theorem workedOff_assertionLines {todo taken : List (String × Value)} {lines : List String}
    {r : Except NoLiteral (List String)} (h : WorkedOff emit below todo lines taken r) :
    r = .ok (lines ++ assertionLines todo) := by
  induction h with
  | done lines => rw [assertionLines, List.append_nil]
  | @failed entry lines e todo hvisit =>
    obtain ⟨target, v⟩ := entry
    cases hleaf : v.leaf with
    | ok l =>
      rw [emit_of_leaf hleaf] at hvisit
      cases hvisit
    | error e' =>
      rw [emit_of_branch hleaf] at hvisit
      cases hvisit
  | @next entry lines lines' todo taken r hvisit _ ih =>
    obtain ⟨target, v⟩ := entry
    rw [ih]
    cases hleaf : v.leaf with
    | ok l =>
      rw [emit_of_leaf hleaf] at hvisit
      obtain rfl := Except.ok.inj hvisit
      rw [below_of_leaf hleaf, assertionLines_eq, assertionLines_eq, List.flatMap_cons, Value.lines,
        Value.leaves_of_leaf hleaf]
      simp
    | error e =>
      rw [emit_of_branch hleaf] at hvisit
      obtain rfl := Except.ok.inj hvisit
      rw [assertionLines_eq, assertionLines_eq, List.flatMap_append, List.flatMap_cons,
        Value.lines_of_branch hleaf]
      rfl

theorem standFor_below : WorkedOff.StandFor below (fun entry => entry.2.data) Data.nodes := by
  intro entry
  rw [Data.nodes_eq, Value.children_data, below, List.flatMap_map, List.flatMap_map]

theorem sum_size_below_lt (entry : String × Value) :
    ((below entry).map fun e => e.2.data.size).sum < entry.2.data.size := by
  have hsizes : ((below entry).map fun e => e.2.data.size) =
      ((Tree.children entry.2.data).map (·.2)).map Data.size := by
    rw [Value.children_data, below, List.map_map, List.map_map, List.map_map]
    rfl
  rw [hsizes]
  exact entry.2.data.sum_size_children_lt

/-- Behind any lines, the loop takes every node of a value off once and adds the lines of the
value. -/
theorem exists_taken (entry : String × Value) (lines : List String) :
    ∃ taken, taken.map (fun e => e.2.data) = entry.2.data.nodes ∧
      WorkedOff emit below [entry] lines taken (.ok (lines ++ assertionLines [entry])) := by
  obtain ⟨taken, r, h⟩ := exists_workedOff (fun e => e.2.data.size) sum_size_below_lt [entry] lines
  obtain rfl := workedOff_assertionLines h
  have hnodes := h.map_eq standFor_below
  rw [List.flatMap_singleton] at hnodes
  exact ⟨taken, hnodes, h⟩

end Emission

/-! Counting lines -/

/-- Scalars and empty containers are leaves. -/
def Data.isLeaf (d : Data) : Bool := (Tree.children d).isEmpty

def Data.leafCount (d : Data) : ℕ := d.nodes.countP isLeaf

theorem Value.length_leaves (v : Value) : v.leaves.length = v.data.leafCount := by
  induction v using induction_children with
  | node v ih =>
    rw [Data.leafCount, Data.nodes_eq]
    cases hleaf : v.leaf with
    | ok l =>
      have hdata : v.data.isLeaf := by
        rw [Data.isLeaf, leaf_eq_ok_iff.mp hleaf, Leaf.children_data]
        rfl
      rw [leaves_of_leaf hleaf, List.countP_cons_of_pos hdata, leaf_eq_ok_iff.mp hleaf,
        Leaf.children_data]
      rfl
    | error e =>
      have hbranch : ¬ v.data.isLeaf := by
        simpa [Data.isLeaf, children_data] using children_ne_nil hleaf
      rw [leaves_of_branch hleaf, List.countP_cons_of_neg hbranch, List.length_flatMap,
        List.countP_flatMap, children_data, List.map_map]
      apply congrArg List.sum
      apply List.map_congr_left
      intro e he
      rw [leavesAt, List.length_map, ih e he]
      rfl

theorem Value.length_lines (entry : String × Value) :
    (lines entry).length = entry.2.data.leafCount := by
  rw [lines, List.length_map, length_leaves]

theorem Value.lines_ne_nil (entry : String × Value) : lines entry ≠ [] := by
  rw [lines, ne_eq, List.map_eq_nil_iff]
  exact leaves_ne_nil entry.2

theorem Value.flatMap_lines_eq_nil_iff (entries : List (String × Value)) :
    entries.flatMap lines = [] ↔ entries = [] := by
  rw [List.flatMap_eq_nil_iff, List.eq_nil_iff_forall_not_mem]
  exact forall₂_congr fun e _ => iff_false_intro (lines_ne_nil e)

theorem Value.lineFeed_not_mem_of_mem_lines {target : String} (htarget : '\n' ∉ target.toList)
    {v : Value} {line : String} (hline : line ∈ lines (target, v)) : '\n' ∉ line.toList := by
  obtain ⟨⟨path, l⟩, -, rfl⟩ := List.mem_map.mp hline
  have hassert : '\n' ∉ "assert ".toList := by decide
  rw [toList_assertion, List.mem_append, List.mem_append]
  exact not_or.mpr ⟨hassert, not_or.mpr ⟨htarget, lineFeed_not_mem (isPrinted_body path l)⟩⟩

theorem count_unlines {lines : List String} (h : ∀ line ∈ lines, '\n' ∉ line.toList) :
    (unlines lines).toList.count '\n' = lines.length := by
  induction lines with
  | nil => rfl
  | cons line lines ih =>
    obtain ⟨hline, hlines⟩ := List.forall_mem_cons.mp h
    rw [toList_unlines_cons, List.count_append, List.count_cons_self, ih hlines,
      List.count_eq_zero_of_not_mem hline, List.length_cons, Nat.zero_add]

theorem unlines_eq_empty_iff (lines : List String) : unlines lines = "" ↔ lines = [] := by
  constructor
  · intro h
    cases lines with
    | nil => rfl
    | cons line lines =>
      have hchars := congrArg String.toList h
      rw [toList_unlines_cons] at hchars
      simp at hchars
  · rintro rfl
    rfl

/-! Records -/

theorem lineFeed_not_mem_of_mem_targets {records : List Data} {isList : Bool} {root : String}
    (hroot : '\n' ∉ root.toList) {e : String × Data} (he : e ∈ targets records isList root) :
    '\n' ∉ e.1.toList := by
  unfold targets at he
  split_ifs at he
  · obtain ⟨⟨d, i⟩, -, rfl⟩ := List.mem_map.mp he
    show '\n' ∉ (root ++ (Key.int i).subscript).toList
    rw [String.toList_append, List.mem_append]
    exact not_or.mpr ⟨hroot, lineFeed_not_mem (isPrinted_subscript _)⟩
  · obtain ⟨d, -, rfl⟩ := List.mem_map.mp he
    exact hroot

/-- The records as values, with the expressions that lead to them. -/
def recordEntries (records : List Data) (isList : Bool) (root : String) : List (String × Value) :=
  (targets records isList root).map fun e => (e.1, e.2.asValue)

section
variable {records : List Data} {isList : Bool} {root : String}

theorem foreign?_of_mem_targets (hjson : ∀ d ∈ records, d.foreign? = none) {e : String × Data}
    (he : e ∈ targets records isList root) : e.2.foreign? = none := by
  apply hjson
  rw [← map_snd_targets records isList root]
  exact List.mem_map_of_mem he

theorem map_data_recordEntries (hjson : ∀ d ∈ records, d.foreign? = none) :
    (recordEntries records isList root).map (fun e => (e.1, e.2.data)) =
      targets records isList root := by
  rw [recordEntries, List.map_map]
  refine (List.map_congr_left fun e he => ?_).trans (List.map_id _)
  exact Prod.ext rfl (Data.data_asValue (foreign?_of_mem_targets hjson he))

theorem records_eq (hjson : ∀ d ∈ records, d.foreign? = none) :
    records = (recordEntries records isList root).map fun e => e.2.data := by
  have hsnd := map_snd_targets records isList root
  rw [← map_data_recordEntries hjson, List.map_map] at hsnd
  exact hsnd.symm

/-- Records of JSON data have their lines, and log them. -/
theorem generateAssertions_of_json (hjson : ∀ d ∈ records, d.foreign? = none) :
    generateAssertions records isList root =
      ⟨((recordEntries records isList root).flatMap Value.lines).map (⟨.generator, ·⟩),
        .ok (unlines ((recordEntries records isList root).flatMap Value.lines))⟩ := by
  rw [generateAssertions, ← map_data_recordEntries hjson, linesOfRecords_data]
  rfl

theorem outcome_generateAssertions (hjson : ∀ d ∈ records, d.foreign? = none) :
    (generateAssertions records isList root).outcome =
      .ok (unlines ((recordEntries records isList root).flatMap Value.lines)) := by
  rw [generateAssertions_of_json hjson]

theorem length_recordLines (hjson : ∀ d ∈ records, d.foreign? = none) :
    ((recordEntries records isList root).flatMap Value.lines).length =
      (records.map Data.leafCount).sum := by
  have hrecords : records = (recordEntries records isList root).map fun e => e.2.data :=
    records_eq hjson
  rw [List.length_flatMap]
  conv_rhs => rw [hrecords, List.map_map]
  exact congrArg List.sum (List.map_congr_left fun e _ => Value.length_lines e)

theorem recordLines_eq_nil_iff (hjson : ∀ d ∈ records, d.foreign? = none) :
    (recordEntries records isList root).flatMap Value.lines = [] ↔ records = [] := by
  have hrecords : (recordEntries records isList root).map (fun e => e.2.data) = records :=
    (records_eq hjson).symm
  rw [Value.flatMap_lines_eq_nil_iff, ← List.map_eq_nil_iff, hrecords]

theorem lineFeed_not_mem_recordLines (hroot : '\n' ∉ root.toList) {line : String}
    (hline : line ∈ (recordEntries records isList root).flatMap Value.lines) :
    '\n' ∉ line.toList := by
  obtain ⟨entry, hentry, hmem⟩ := List.mem_flatMap.mp hline
  obtain ⟨e, he, rfl⟩ := List.mem_map.mp hentry
  exact Value.lineFeed_not_mem_of_mem_lines (lineFeed_not_mem_of_mem_targets hroot he) hmem

end

open Emission

/-- The text of a record: it is emitted recursively, and the loop over its nodes, which takes each of
them off once and starts behind any lines, has it for new lines. -/
structure IsEmitted (entry : String × Data) (text : String) : Prop where
  emission : entry.2.asValue.emission entry.1 = .ok text
  loop : ∀ lines, ∃ taken more, taken.map (fun e => e.2.data) = entry.2.nodes ∧
    WorkedOff emit below [(entry.1, entry.2.asValue)] lines taken (.ok (lines ++ more)) ∧
    more = assertionLines [(entry.1, entry.2.asValue)] ∧ more ≠ [] ∧ unlines more = text

theorem isEmitted_of_json {target : String} {d : Data} (hjson : d.foreign? = none) :
    IsEmitted (target, d) (unlines (Value.lines (target, d.asValue))) where
  emission := d.asValue.emission_eq target
  loop := by
    intro lines
    obtain ⟨taken, hnodes, hworked⟩ := exists_taken (target, d.asValue) lines
    have hlines : assertionLines [(target, d.asValue)] = Value.lines (target, d.asValue) := by
      rw [assertionLines_eq, List.flatMap_singleton]
    rw [Data.data_asValue hjson] at hnodes
    refine ⟨taken, _, hnodes, hworked, rfl, ?_, congrArg unlines hlines⟩
    rw [hlines]
    exact Value.lines_ne_nil _

/-- What is generated for records of JSON data is emitted record after record. It has one line for
each leaf, at least one for each record, and is empty for no records alone. -/
theorem generateAssertions_emits {records : List Data} (hjson : ∀ d ∈ records, d.foreign? = none)
    (isList : Bool) (root : String) :
    ∃ texts, List.Forall₂ IsEmitted (targets records isList root) texts ∧
      (generateAssertions records isList root).outcome = .ok (String.join texts) ∧
      ('\n' ∉ root.toList →
        (String.join texts).toList.count '\n' = (records.map Data.leafCount).sum) ∧
      (String.join texts = "" ↔ records = []) := by
  refine ⟨(recordEntries records isList root).map fun e => unlines (Value.lines e), ?_, ?_, ?_, ?_⟩
  · rw [recordEntries, List.map_map, List.forall₂_map_right_iff, List.forall₂_same]
    exact fun e he => isEmitted_of_json (foreign?_of_mem_targets hjson he)
  · rw [outcome_generateAssertions hjson, unlines_flatMap]
  · intro hroot
    rw [← unlines_flatMap, count_unlines fun line => lineFeed_not_mem_recordLines hroot,
      length_recordLines hjson]
  · rw [← unlines_flatMap, unlines_eq_empty_iff, recordLines_eq_nil_iff hjson]

theorem generateAssertions_emits_nested :
    let items : List Data := [.number (.int (-1)), .dict []]
    let d : Data := .dict [(.text "a\n", .list []), (.text "b", .list items)]
    (∀ x ∈ [d], x.foreign? = none) ∧
      ∃ text, (generateAssertions [d] true "r").outcome = .ok text ∧
        text.toList.count '\n' = 3 := by
  intro items d
  have hjson : ∀ x ∈ [d], x.foreign? = none := by
    intro x hx
    rw [List.mem_singleton.mp hx]
    rfl
  obtain ⟨texts, -, houtcome, hcount, -⟩ := generateAssertions_emits hjson true "r"
  exact ⟨hjson, _, houtcome, hcount (by decide)⟩

end JsonAssert
