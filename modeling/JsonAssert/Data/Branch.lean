import JsonAssert.Data.Basic

/-! The containers of a tree, apart from what its leaves are. -/
namespace JsonAssert

inductive Branch (α : Type) where
  | list (items : List α)
  | dict (entries : Dict α)

namespace Branch
variable {α : Type}

/-- The children with the keys that lead to them; an element's key is its index. -/
def children : Branch α → List (Key × α)
  | .list items => items.zipIdx.map fun (x, i) => (.int i, x)
  | .dict entries => entries

@[simp] theorem map_snd_children_list (items : List α) :
    (list items).children.map (·.2) = items := by
  simp only [children, List.map_map]
  exact List.zipIdx_map_fst 0 items

/-- The place in a list of `length` elements that a key names; a negative number counts from the
end. -/
def position? (length : Nat) (k : Key) : Option Nat := do
  let n ← k.index?
  let i := if n < 0 then n + length else n
  if 0 ≤ i ∧ i < length then some i.toNat else none

def get? (k : Key) : Branch α → Option α
  | .list items => (position? items.length k).bind (items[·]?)
  | .dict entries => entries.get? k

/-- Puts another child in the place of the one that is there. -/
def replace (k : Key) (x : α) : Branch α → Branch α
  | .list items =>
    match position? items.length k with
    | some i => .list (items.set i x)
    | none => .list items
  | .dict entries => .dict (entries.insert k x)

end Branch

/-- A kind of tree, some of whose nodes are containers. -/
class Tree (α : Type) where
  branch? : α → Option (Branch α)
  ofBranch : Branch α → α

namespace Tree
variable {α : Type} [Tree α]

def children (t : α) : List (Key × α) := ((branch? t).map Branch.children).getD []

/-- The subtree at the end of a path. -/
def at? : List Key → α → Option α
  | [], t => some t
  | k :: path, t => do at? path (← (← branch? t).get? k)

end Tree

namespace Data

def branch? : Data → Option (Branch Data)
  | .list items => some (.list items)
  | .dict entries => some (.dict entries)
  | _ => none

def ofBranch : Branch Data → Data
  | .list items => .list items
  | .dict entries => .dict entries

instance : Tree Data := ⟨branch?, ofBranch⟩

end Data
end JsonAssert
