/-! Dictionaries: entries in the order of their first insertion, one for each key. -/
namespace JsonAssert

inductive Key where
  | text (s : String)
  | int (n : Int)
  | bool (b : Bool)
  deriving DecidableEq, Repr

/-- The whole number that a key counts as, if it is no text; the truth values count as 0 and 1. -/
def Key.index? : Key → Option Int
  | .text _ => none
  | .int n => some n
  | .bool b => some b.toInt

/-- The key that stands for all keys of one place. -/
def Key.canonical (k : Key) : Key :=
  match k.index? with
  | some n => .int n
  | none => k

/-- Whether two keys name one place: a truth value and its number do. -/
def Key.same (k l : Key) : Bool := k.canonical == l.canonical

abbrev Dict (α : Type) := List (Key × α)

namespace Dict
variable {α : Type}

def get? (k : Key) (d : Dict α) : Option α := (d.find? (·.1.same k)).map (·.2)

/-- A key that is there keeps its place and its spelling; a new one goes last. -/
def insert (k : Key) (v : α) : Dict α → Dict α
  | [] => [(k, v)]
  | entry :: d => if entry.1.same k then (entry.1, v) :: d else entry :: insert k v d

def erase (k : Key) (d : Dict α) : Dict α := d.filter fun entry => !entry.1.same k

/-- Of several entries with one key the last value stays, at the place of the first. -/
def ofList (entries : List (Key × α)) : Dict α := entries.foldl (fun d (k, v) => insert k v d) []

end Dict
end JsonAssert
