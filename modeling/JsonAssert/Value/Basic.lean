import JsonAssert.Data.Branch

/-! Values: trees that hold JSON data and nothing else. -/
namespace JsonAssert

inductive Value where
  | null
  | bool (b : Bool)
  | number (n : Number)
  | text (s : String)
  | list (items : List Value)
  | dict (entries : List (Key × Value))

namespace Value

instance : Inhabited Value := ⟨.null⟩

/-- Null alone counts as false; an empty container and the truth value false do not. -/
def truthy : Value → Bool
  | .null => false
  | _ => true

def branch? : Value → Option (Branch Value)
  | .list items => some (.list items)
  | .dict entries => some (.dict entries)
  | _ => none

def ofBranch : Branch Value → Value
  | .list items => .list items
  | .dict entries => .dict entries

instance : Tree Value := ⟨branch?, ofBranch⟩

mutual
/-- The number of nodes. -/
def size : Value → Nat
  | .list items => sizeOfItems items + 1
  | .dict entries => sizeOfEntries entries + 1
  | _ => 1

def sizeOfItems : List Value → Nat
  | [] => 0
  | v :: items => v.size + sizeOfItems items

def sizeOfEntries : List (Key × Value) → Nat
  | [] => 0
  | (_, v) :: entries => v.size + sizeOfEntries entries
end

@[simp] theorem sizeOfItems_append (xs ys : List Value) :
    sizeOfItems (xs ++ ys) = sizeOfItems xs + sizeOfItems ys := by
  induction xs with
  | nil => simp [sizeOfItems]
  | cons x xs ih => simp [sizeOfItems, ih, Nat.add_assoc]

theorem sizeOfEntries_eq (entries : List (Key × Value)) :
    sizeOfEntries entries = sizeOfItems (entries.map (·.2)) := by
  induction entries with
  | nil => rfl
  | cons e entries ih => simp [sizeOfEntries, sizeOfItems, ih]

/-- A node is one more than its children. -/
theorem size_children (v : Value) : sizeOfItems ((Tree.children v).map (·.2)) + 1 = v.size := by
  cases v with
  | list items =>
    exact congrArg (sizeOfItems · + 1) (Branch.map_snd_children_list items)
  | dict entries => exact congrArg (· + 1) (sizeOfEntries_eq entries).symm
  | _ => rfl

end Value
end JsonAssert
