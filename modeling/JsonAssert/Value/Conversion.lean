import JsonAssert.Value.Basic

/-! Conversion of data to values. A list of open nodes is worked off from the front, so no nesting
is too deep; the nodes are taken apart in document order and put together again from the last one
back. -/
namespace JsonAssert

/-- An object that is no JSON data. -/
structure NotJson where
  typeName : String
  deriving DecidableEq, Repr

def NotJson.message (e : NotJson) : String := "not a JSON value: " ++ e.typeName

namespace Conversion

/-- A node without its children. -/
inductive Shell where
  | leaf (v : Value)
  | list (length : Nat)
  | dict (keys : List Key)

def takeApart : Data → Except NotJson (Shell × List Data)
  | .null => .ok (.leaf .null, [])
  | .bool b => .ok (.leaf (.bool b), [])
  | .number n => .ok (.leaf (.number n), [])
  | .text s => .ok (.leaf (.text s), [])
  | .list items => .ok (.list items.length, items)
  | .dict entries => .ok (.dict (entries.map (·.1)), entries.map (·.2))
  | .other typeName => .error ⟨typeName⟩

/-- Taking a node apart leaves less to do. -/
theorem size_takeApart {d : Data} {s : Shell} {children : List Data}
    (h : takeApart d = .ok (s, children)) : Data.sizeOfItems children < d.size := by
  cases d with
  | other typeName => simp [takeApart] at h
  | dict entries =>
    obtain ⟨rfl, rfl⟩ : _ ∧ _ := by simpa [takeApart] using h
    simp only [Data.size, Data.sizeOfEntries_eq]
    omega
  | _ =>
    obtain ⟨rfl, rfl⟩ : _ ∧ _ := by simpa [takeApart] using h
    simp only [Data.size, Data.sizeOfItems]
    omega

/-- The nodes of the data on the list, each before its children, up to the first that is no JSON
data. -/
def shells : List Data → Except NotJson (List Shell)
  | [] => .ok []
  | d :: rest =>
    match _h : takeApart d with
    | .error e => .error e
    | .ok (s, children) =>
      match shells (children ++ rest) with
      | .error e => .error e
      | .ok more => .ok (s :: more)
termination_by todo => Data.sizeOfItems todo
decreasing_by
  have hsize := size_takeApart _h
  simp only [Data.sizeOfItems_append, Data.sizeOfItems]
  omega

theorem shells_cons (d : Data) (rest : List Data) :
    shells (d :: rest) =
      match takeApart d with
      | .error e => .error e
      | .ok (s, children) => (shells (children ++ rest)).map (s :: ·) := by
  rw [shells]
  split
  · next h => rw [h]
  · next h =>
    rw [h]
    simp only
    split <;> next h' => rw [h']; rfl

/-- Gives a node its children, the first of the values at hand. -/
def putTogether : Shell → List Value → List Value
  | .leaf v, values => v :: values
  | .list length, values => .list (values.take length) :: values.drop length
  | .dict keys, values => .dict (keys.zip values) :: values.drop keys.length

end Conversion

def Data.toValue (d : Data) : Except NotJson Value :=
  match Conversion.shells [d] with
  | .error e => .error e
  | .ok nodes => .ok ((nodes.foldr Conversion.putTogether []).headD .null)

end JsonAssert
