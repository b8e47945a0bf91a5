import JsonAssert.Data.Branch

/-! Edits of one container somewhere in a tree. -/
namespace JsonAssert

inductive Change (α : Type) where
  | append (x : α)
  | set (k : Key) (x : α)
  | delete (k : Key)

def Change.map {α β : Type} (f : α → β) : Change α → Change β
  | .append x => .append (f x)
  | .set k x => .set k (f x)
  | .delete k => .delete k

/-- A change of the container at the end of a path. -/
structure Edit (α : Type) where
  path : List Key
  change : Change α

/-- Only lists grow at their end, and only dictionaries have entries to set or to delete. -/
def Branch.change? {α : Type} : Change α → Branch α → Option (Branch α)
  | .append x, .list items => some (.list (items ++ [x]))
  | .set k x, .dict entries => some (.dict (entries.insert k x))
  | .delete k, .dict entries =>
    if (entries.get? k).isSome then some (.dict (entries.erase k)) else none
  | _, _ => none

/-- The tree after a change at a path, if the path leads to a container that allows the change. -/
def Tree.change? {α : Type} [Tree α] (c : Change α) : List Key → α → Option α
  | [], t => do return ofBranch (← (← branch? t).change? c)
  | k :: path, t => do
    let b ← branch? t
    return ofBranch (b.replace k (← change? c path (← b.get? k)))

def Tree.edit? {α : Type} [Tree α] (e : Edit α) (t : α) : Option α := Tree.change? e.change e.path t

end JsonAssert
