import JsonAssert.Assertion.Leaf
import JsonAssert.Decoding
import JsonAssert.Value.Conversion

/-! Assertions for whole documents, one for each leaf in document order. The texts and keys are those
that a reader hands out, and all of them can be written. -/
namespace JsonAssert

/-- The lines of the values on the list, each with the expression that leads to it. The children of
a container go to the front of the list. -/
def assertionLines : List (String × Value) → List String
  | [] => []
  | (target, v) :: rest =>
    match v.leaf with
    | .ok l => l.assertion target :: assertionLines rest
    | .error _ =>
      let children := (Tree.children v).map fun (k, child) => (subscripted target k, child)
      assertionLines (children ++ rest)
termination_by todo => Value.sizeOfItems (todo.map (·.2))
decreasing_by
  all_goals
    have hsize := v.size_children
    simp only [List.map_cons, List.map_append, List.map_map, Function.comp_def,
      Value.sizeOfItems_append, Value.sizeOfItems]
    omega

/-- The lines of one record after the other. A record is converted as a whole before its first line
is logged. -/
def linesOfRecords : List (String × Data) → Traced NotJson (List String)
  | [] => pure []
  | (target, d) :: rest => do
    let v ← .ofExcept d.toValue
    let lines := assertionLines [(target, v)]
    .record .generator lines
    (lines ++ ·) <$> linesOfRecords rest

/-- The records with the expressions that lead to them: elements of the root, or the root itself for
all of them. -/
def targets {α : Type} (records : List α) (isList : Bool) (root : String) : List (String × α) :=
  if isList then records.zipIdx.map fun (d, i) => (subscripted root (.int i), d)
  else records.map (root, ·)

theorem map_snd_targets {α : Type} (records : List α) (isList : Bool) (root : String) :
    (targets records isList root).map (·.2) = records := by
  unfold targets
  split
  · rw [List.map_map]
    exact List.zipIdx_map_fst 0 records
  · rw [List.map_map]
    exact List.map_id records

theorem targets_map {α β : Type} (f : α → β) (records : List α) (isList : Bool) (root : String) :
    targets (records.map f) isList root =
      (targets records isList root).map fun record => (record.1, f record.2) := by
  unfold targets
  split
  · rw [List.zipIdx_map, List.map_map, List.map_map]
    rfl
  · rw [List.map_map, List.map_map]
    rfl

/-- The expression for the document where no other is given. -/
def defaultRoot : String := "result"

def unlines (lines : List String) : String := .join (lines.map (· ++ "\n"))

def generateAssertions (records : List Data) (isList : Bool) (root : String) :
    Traced NotJson String :=
  unlines <$> linesOfRecords (targets records isList root)

inductive GenerateError where
  | decode (e : DecodeError)
  | notJson (e : NotJson)
  deriving DecidableEq, Repr

def GenerateError.message : GenerateError → String
  | .decode e => e.message
  | .notJson e => e.message

/-- The assertions that hold for the document of a source. -/
def generateFrom (source : Source) (root : String) : Traced GenerateError String := do
  let records ← (decode source).mapError .decode
  (generateAssertions (records.map .dict) source.isArray root).mapError .notJson

end JsonAssert
