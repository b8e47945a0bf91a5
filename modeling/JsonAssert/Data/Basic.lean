import JsonAssert.Data.Dict
import JsonAssert.Number.Basic

/-! Data as a reader hands it out, and as others may build it by hand. -/
namespace JsonAssert

/-- What `other` holds is no JSON data; all that is known of it is the name of its type. -/
inductive Data where
  | null
  | bool (b : Bool)
  | number (n : Number)
  | text (s : String)
  | list (items : List Data)
  | dict (entries : List (Key × Data))
  | other (typeName : String)

namespace Data

instance : Inhabited Data := ⟨.null⟩

def kind : Data → String
  | .null => "null"
  | .bool _ => "boolean"
  | .number _ => "number"
  | .text _ => "string"
  | .list _ => "array"
  | .dict _ => "object"
  | .other typeName => typeName

mutual
/-- The number of values in the data, itself included. -/
def size : Data → Nat
  | .list items => sizeOfItems items + 1
  | .dict entries => sizeOfEntries entries + 1
  | _ => 1

def sizeOfItems : List Data → Nat
  | [] => 0
  | d :: items => d.size + sizeOfItems items

def sizeOfEntries : List (Key × Data) → Nat
  | [] => 0
  | (_, d) :: entries => d.size + sizeOfEntries entries
end

@[simp] theorem sizeOfItems_append (xs ys : List Data) :
    sizeOfItems (xs ++ ys) = sizeOfItems xs + sizeOfItems ys := by
  induction xs with
  | nil => simp [sizeOfItems]
  | cons x xs ih => simp [sizeOfItems, ih, Nat.add_assoc]

theorem sizeOfEntries_eq (entries : List (Key × Data)) :
    sizeOfEntries entries = sizeOfItems (entries.map (·.2)) := by
  induction entries with
  | nil => rfl
  | cons e entries ih => simp [sizeOfEntries, sizeOfItems, ih]

end Data
end JsonAssert
