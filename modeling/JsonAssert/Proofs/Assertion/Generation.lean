import JsonAssert.Assertion.Generation
import JsonAssert.Proofs.Shape
import JsonAssert.Proofs.Value.Conversion

/-! What is generated: a line for each leaf of each record, in document order. It depends on the data
of the source alone, and no source that is read fails later. -/
namespace JsonAssert
open Json

/-! Leaves -/

namespace Value

mutual
/-- The leaves of a value in document order, each with the path that leads to it. -/
def leaves : Value → List (List Key × Leaf)
  | .null => [([], .null)]
  | .bool b => [([], .bool b)]
  | .number n => [([], .number n)]
  | .text s => [([], .text s)]
  | .list items => if items.isEmpty then [([], .emptyList)] else leavesOfItems 0 items
  | .dict entries => if entries.isEmpty then [([], .emptyDict)] else leavesOfEntries entries

def leavesOfItems (index : ℕ) : List Value → List (List Key × Leaf)
  | [] => []
  | v :: items => v.leaves.map (fun p => (.int index :: p.1, p.2)) ++ leavesOfItems (index + 1) items

def leavesOfEntries : List (Key × Value) → List (List Key × Leaf)
  | [] => []
  | (k, v) :: entries => v.leaves.map (fun p => (k :: p.1, p.2)) ++ leavesOfEntries entries
end

/-- The leaves below a key. -/
def leavesAt (e : Key × Value) : List (List Key × Leaf) :=
  e.2.leaves.map fun p => (e.1 :: p.1, p.2)

theorem leavesOfItems_eq (index : ℕ) (items : List Value) :
    leavesOfItems index items =
      ((items.zipIdx index).map fun (v, i) => ((.int i : Key), v)).flatMap leavesAt := by
  induction items generalizing index with
  | nil => rfl
  | cons v items ih =>
    rw [leavesOfItems, ih]
    rfl

theorem leavesOfEntries_eq (entries : List (Key × Value)) :
    leavesOfEntries entries = entries.flatMap leavesAt := by
  induction entries with
  | nil => rfl
  | cons e entries ih =>
    rw [List.flatMap_cons, ← ih]
    rfl

end Value

/-- The value that is a leaf. -/
def Leaf.value : Leaf → Value
  | .null => .null
  | .bool b => .bool b
  | .number n => .number n
  | .text s => .text s
  | .emptyList => .list []
  | .emptyDict => .dict []

namespace Value

theorem eq_value_of_leaf {v : Value} {l : Leaf} (h : v.leaf = .ok l) : v = l.value := by
  cases v with
  | list items =>
    cases items with
    | nil =>
      obtain rfl : Leaf.emptyList = l := by simpa [leaf] using h
      rfl
    | cons v items => simp [leaf] at h
  | dict entries =>
    cases entries with
    | nil =>
      obtain rfl : Leaf.emptyDict = l := by simpa [leaf] using h
      rfl
    | cons e entries => simp [leaf] at h
  | _ =>
    simp only [leaf, Except.ok.injEq] at h
    rw [← h, Leaf.value]

theorem leaves_of_leaf {v : Value} {l : Leaf} (h : v.leaf = .ok l) : v.leaves = [([], l)] := by
  rw [eq_value_of_leaf h]
  cases l <;> rfl

theorem leaves_of_branch {v : Value} {e : NoLiteral} (h : v.leaf = .error e) :
    v.leaves = (Tree.children v).flatMap leavesAt := by
  cases v with
  | list items =>
    cases items with
    | nil => simp [leaf] at h
    | cons v items => exact leavesOfItems_eq 0 (v :: items)
  | dict entries =>
    cases entries with
    | nil => simp [leaf] at h
    | cons e entries => exact leavesOfEntries_eq (e :: entries)
  | _ => simp [leaf] at h

/-- The lines of a value that an expression leads to. -/
def lines (e : String × Value) : List String :=
  e.2.leaves.map fun p => p.2.assertion (p.1.foldl subscripted e.1)

/-- The lines of children are those of the leaves below their keys. -/
theorem flatMap_lines (children : List (Key × Value)) (target : String) :
    (children.map fun (k, child) => (subscripted target k, child)).flatMap lines =
      (children.flatMap leavesAt).map fun p => p.2.assertion (p.1.foldl subscripted target) := by
  rw [List.map_flatMap, List.flatMap_map]
  apply List.flatMap_congr
  intro child _
  rw [leavesAt, List.map_map]
  rfl

theorem lines_of_branch {v : Value} {e : NoLiteral} (h : v.leaf = .error e) (target : String) :
    lines (target, v) =
      ((Tree.children v).map fun (k, child) => (subscripted target k, child)).flatMap lines := by
  rw [lines, leaves_of_branch h, flatMap_lines]

end Value

/-- The worklist gives the lines of its values one after the other. -/
theorem assertionLines_eq (todo : List (String × Value)) :
    assertionLines todo = todo.flatMap Value.lines := by
  induction hsize : Value.sizeOfItems (todo.map (·.2)) using Nat.strong_induction_on
    generalizing todo with
  | _ size ih =>
    subst hsize
    cases todo with
    | nil => rw [assertionLines, List.flatMap_nil]
    | cons e rest =>
      obtain ⟨target, v⟩ := e
      have hchildren := v.size_children
      rw [assertionLines, List.flatMap_cons]
      split
      · next l hl =>
        have hrest := ih (Value.sizeOfItems (rest.map (·.2)))
          (by simp only [List.map_cons, Value.sizeOfItems]; omega) rest rfl
        rw [hrest, Value.lines, Value.leaves_of_leaf hl]
        rfl
      · next e hbranch =>
        have hmore := ih _ (by
          simp only [List.map_cons, List.map_append, List.map_map, Function.comp_def,
            Value.sizeOfItems_append, Value.sizeOfItems] at hchildren ⊢
          omega) (((Tree.children v).map fun (k, child) => (subscripted target k, child)) ++ rest)
          rfl
        rw [hmore, List.flatMap_append, Value.lines_of_branch hbranch]

/-! Text -/

theorem unlines_append (lines lines' : List String) :
    unlines (lines ++ lines') = unlines lines ++ unlines lines' := by
  rw [unlines, List.map_append, String.join_append]
  rfl

theorem unlines_flatMap {α : Type} (f : α → List String) (xs : List α) :
    unlines (xs.flatMap f) = String.join (xs.map fun x => unlines (f x)) := by
  induction xs with
  | nil => rfl
  | cons x xs ih => rw [List.flatMap_cons, unlines_append, ih, List.map_cons, String.join_cons]

/-! Records -/

/-- Records that are values log their lines one by one, before anything else is logged. -/
theorem linesOfRecords_append (todo : List (String × Value)) (rest : List (String × Data)) :
    linesOfRecords (todo.map (fun e => (e.1, e.2.data)) ++ rest) =
      ⟨(todo.flatMap Value.lines).map (⟨.generator, ·⟩) ++ (linesOfRecords rest).log,
        (linesOfRecords rest).outcome.map (todo.flatMap Value.lines ++ ·)⟩ := by
  induction todo with
  | nil =>
    have hsame : (linesOfRecords rest).outcome.map ([] ++ ·) = (linesOfRecords rest).outcome := by
      cases (linesOfRecords rest).outcome <;> rfl
    rw [List.flatMap_nil, hsame]
    rfl
  | cons e todo ih =>
    rw [List.map_cons, List.cons_append, linesOfRecords, toValue_data]
    simp only [Traced.ofExcept, Traced.record, Traced.bind_ok, Traced.map_eq, ih, assertionLines_eq,
      List.flatMap_cons, List.flatMap_nil, List.append_nil, List.nil_append, List.map_append,
      List.append_assoc]
    cases (linesOfRecords rest).outcome <;> simp [Except.map]

theorem linesOfRecords_data (todo : List (String × Value)) :
    linesOfRecords (todo.map fun e => (e.1, e.2.data)) =
      ⟨(todo.flatMap Value.lines).map (⟨.generator, ·⟩), .ok (todo.flatMap Value.lines)⟩ := by
  have happend := linesOfRecords_append todo []
  rw [List.append_nil] at happend
  rw [happend, linesOfRecords]
  simp [Except.map]

/-- The records with the expressions that lead to them, as values. -/
def valueTargets (records : List Value) (isList : Bool) (root : String) : List (String × Value) :=
  if isList then records.zipIdx.map fun (v, i) => (subscripted root (.int i), v)
  else records.map (root, ·)

theorem valueTargets_list (items : List Value) (root : String) :
    valueTargets items true root =
      (Tree.children (Value.list items)).map fun (k, child) => (subscripted root k, child) := by
  show _ = (Branch.list items).children.map _
  rw [valueTargets, if_pos rfl, Branch.children, List.map_map]
  rfl

theorem targets_map_data (records : List Value) (isList : Bool) (root : String) :
    targets (records.map Value.data) isList root =
      (valueTargets records isList root).map fun e => (e.1, e.2.data) :=
  targets_map Value.data records isList root

/-- Values have assertions: the lines of each, one record after the other. -/
theorem generateAssertions_data (records : List Value) (isList : Bool) (root : String) :
    (generateAssertions (records.map Value.data) isList root).outcome =
      .ok (unlines ((valueTargets records isList root).flatMap Value.lines)) := by
  rw [generateAssertions, Traced.map_eq, targets_map_data, linesOfRecords_data]
  rfl

theorem outcome_generateFrom (source : Source) (root : String) :
    (generateFrom source root).outcome =
      match (decode source).outcome with
      | .error e => .error (.decode e)
      | .ok records =>
        (generateAssertions (records.map .dict) source.isArray root).outcome.mapError .notJson := by
  unfold generateFrom Traced.mapError
  cases hdecode : (decode source).outcome <;> rfl

theorem outcome_decode_of_generateFrom {source : Source} {root : String} {e : DecodeError}
    (h : (generateFrom source root).outcome = .error (.decode e)) :
    (decode source).outcome = .error e := by
  rw [outcome_generateFrom] at h
  cases hdecode : (decode source).outcome with
  | error e' => simpa [hdecode] using h
  | ok records =>
    rw [hdecode] at h
    cases hlines : (generateAssertions (records.map .dict) source.isArray root).outcome <;>
      simp [hlines, Except.mapError] at h

/-- The records of well-formed data are values. -/
theorem exists_recordValues {d : Data} {records : List Record} (h : d.IsWellFormed)
    (hrecords : d.asDocument = .ok records) :
    ∃ values : List Value, values.map Value.data = records.map .dict := by
  apply exists_values
  rcases Data.asDocument_eq_ok_iff.mp hrecords with rfl | ⟨record, rfl, rfl⟩
  · cases h with
    | list hitems => exact fun d hd => (hitems d hd).exists_value
  · intro d hd
    rw [List.map_singleton, List.mem_singleton] at hd
    rw [hd]
    exact h.exists_value

def Data.isList : Data → Bool
  | .list _ => true
  | _ => false

theorem Source.isArray_eq_isList {source : Source} {d : Data} (h : source.parse = .ok d) :
    source.isArray = d.isList := by
  rw [Bool.eq_iff_iff, isArray_iff h]
  cases d <;> simp [Data.isList]

/-- A source that is read has assertions if it has the shape of a document, and what they are
depends on its data alone. -/
theorem outcome_generateFrom_of_parse {source : Source} {d : Data} (h : source.parse = .ok d)
    (root : String) :
    (generateFrom source root).outcome =
      match d.asDocument with
      | .error m => .error (.decode (.mismatch m))
      | .ok records =>
        (generateAssertions (records.map .dict) d.isList root).outcome.mapError
          .notJson := by
  rw [outcome_generateFrom, outcome_decode_of_parse h, Source.isArray_eq_isList h]
  cases d.asDocument <;> rfl

/-- A source of one object has the lines of its value. -/
theorem outcome_generateFrom_object {source : Source} {record : Record} {v : Value}
    (h : source.parse = .ok (.dict record)) (hv : v.data = .dict record) (root : String) :
    (generateFrom source root).outcome = .ok (unlines (Value.lines (root, v))) := by
  have hgenerate := generateAssertions_data [v] false root
  have htargets : valueTargets [v] false root = [(root, v)] := rfl
  rw [List.map_singleton, hv, htargets, List.flatMap_singleton] at hgenerate
  rw [outcome_generateFrom_of_parse h]
  simp only [Data.asDocument, Data.asRecord, Except.map, List.map_singleton, Data.isList, hgenerate]
  rfl

/-- A source of an array of objects has the lines of each of them from its own place. -/
theorem outcome_generateFrom_array {source : Source} {records : List Record}
    {values : List Value} (h : source.parse = .ok (.list (records.map .dict)))
    (hv : values.map Value.data = records.map .dict) (root : String) :
    (generateFrom source root).outcome =
      .ok (unlines ((valueTargets values true root).flatMap Value.lines)) := by
  have hgenerate := generateAssertions_data values true root
  have hrecords : (Data.list (records.map .dict)).asDocument = .ok records :=
    Data.asDocument_eq_ok_iff.mpr (.inl rfl)
  rw [hv] at hgenerate
  rw [outcome_generateFrom_of_parse h, hrecords]
  simp only [Data.isList, hgenerate]
  rfl

theorem outcome_generateFrom_of_error {source : Source} {report : Report}
    (h : source.parse = .error report) (root : String) :
    (generateFrom source root).outcome = .error (.decode (.malformed report)) := by
  rw [outcome_generateFrom, outcome_decode_of_error h]

/-- A source with the shape of a document has assertions. -/
theorem exists_code {source : Source} {d : Data} {records : List Record}
    (h : source.parse = .ok d) (hrecords : d.asDocument = .ok records) (root : String) :
    ∃ code, (generateFrom source root).outcome = .ok code := by
  obtain ⟨values, hvalues⟩ := exists_recordValues (Source.isJson_of_parse h).isWellFormed hrecords
  rw [outcome_generateFrom_of_parse h, hrecords]
  simp only [← hvalues, generateAssertions_data]
  exact ⟨_, rfl⟩

/-- Nothing that is read from a source is foreign to JSON. -/
theorem generateFrom_ne_notJson (source : Source) (root : String) (e : NotJson) :
    (generateFrom source root).outcome ≠ .error (.notJson e) := by
  cases h : source.parse with
  | error report =>
    rw [outcome_generateFrom_of_error h]
    simp
  | ok d =>
    cases hrecords : d.asDocument with
    | error m =>
      rw [outcome_generateFrom_of_parse h, hrecords]
      simp
    | ok records =>
      obtain ⟨code, hcode⟩ := exists_code h hrecords root
      rw [hcode]
      simp

end JsonAssert
