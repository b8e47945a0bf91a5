/-! Files and directories from the root on, and the directory that is worked in. -/
namespace JsonAssert

inductive Entry where
  | file (bytes : List UInt8)
  | directory
  deriving DecidableEq, Repr

/-- Entries by the names that lead to them from the root, and the names of the working directory. -/
structure FileTree where
  entries : List (List String × Entry)
  workingDirectory : List String
  deriving DecidableEq, Repr

namespace FileTree

/-- Nothing but the root, which is worked in. -/
def empty : FileTree := ⟨[], []⟩

/-- The entry at some names; without a name it is the root itself. -/
def get? (t : FileTree) (names : List String) : Option Entry :=
  if names = [] then some .directory else t.entries.lookup names

def remove (names : List String) (t : FileTree) : FileTree :=
  { t with entries := t.entries.filter fun entry => entry.1 != names }

def put (names : List String) (entry : Entry) (t : FileTree) : FileTree :=
  { t with entries := (names, entry) :: (t.remove names).entries }

end FileTree
end JsonAssert
