import JsonAssert.Assertion.Leaf
import JsonAssert.Value.Conversion

/-! Data from elsewhere. A text may hold surrogates, a key may be an object of any type, and both may
be such that the JSON writer refuses them. No reader hands out such data, but others may build it. -/
namespace JsonAssert.Raw

/-- A code point of a text, a surrogate being counted from the first one. -/
inductive CodePoint where
  | character (c : Char)
  | surrogate (n : Fin 0x800)
  deriving DecidableEq, Repr

/-- What the JSON writer says of a text or a key that it does not write. -/
inductive Unwritable where
  | surrogate
  | type (name : String)
  | other (message : String)
  deriving DecidableEq, Repr

def Unwritable.message : Unwritable → String
  | .surrogate => "str is not valid UTF-8: surrogates not allowed"
  | .type name => "Type is not JSON serializable: " ++ name
  | .other message => message

abbrev Text := List CodePoint

def CodePoint.character? : CodePoint → Except Unwritable Char
  | .character c => .ok c
  | .surrogate _ => .error .surrogate

/-- The string with the same characters, if there are no others. -/
def Text.string (t : Text) : Except Unwritable String :=
  (t.mapM CodePoint.character?).map String.ofList

def Text.ofString (s : String) : Text := s.toList.map .character

/-- Of a key that is none of these it is known what the JSON writer makes of it. -/
inductive Key where
  | text (t : Text)
  | int (n : Int)
  | bool (b : Bool)
  | other (written : Except Unwritable String)

def Key.ofKey : JsonAssert.Key → Key
  | .text s => .text (.ofString s)
  | .int n => .int n
  | .bool b => .bool b

def Key.subscript : Key → Except Unwritable String
  | .text t => t.string.map fun s => (JsonAssert.Key.text s).subscript
  | .int n => .ok (JsonAssert.Key.int n).subscript
  | .bool b => .ok (JsonAssert.Key.bool b).subscript
  | .other written => written.map fun s => "[" ++ s ++ "]"

/-- The expression for what a key of a parent leads to. -/
def subscripted (parent : String) (k : Key) : Except Unwritable String :=
  k.subscript.map (parent ++ ·)

/-- Data in which there may be other objects, of which `ε` is what is known. -/
inductive Data (ε : Type) where
  | null
  | bool (b : Bool)
  | number (n : Number)
  | text (t : Text)
  | list (items : List (Data ε))
  | dict (entries : List (Key × Data ε))
  | other (x : ε)

instance {ε : Type} : Inhabited (Data ε) := ⟨.null⟩

/-- Data without other objects. -/
abbrev Value := Data Empty

mutual
/-- The value of the same shape. Of several objects that are no JSON data, the first in document
order is complained of, by the name of its type. -/
def Data.toValue : Data String → Except NotJson Value
  | .null => .ok .null
  | .bool b => .ok (.bool b)
  | .number n => .ok (.number n)
  | .text t => .ok (.text t)
  | .list items => (valuesOfItems items).map .list
  | .dict entries => (valuesOfEntries entries).map .dict
  | .other typeName => .error ⟨typeName⟩

def valuesOfItems : List (Data String) → Except NotJson (List Value)
  | [] => .ok []
  | d :: items => do
    let v ← d.toValue
    (v :: ·) <$> valuesOfItems items

def valuesOfEntries : List (Key × Data String) → Except NotJson (List (Key × Value))
  | [] => .ok []
  | (k, d) :: entries => do
    let v ← d.toValue
    ((k, v) :: ·) <$> valuesOfEntries entries
end

mutual
/-- Data that a reader hands out. -/
def Data.ofData : JsonAssert.Data → Data String
  | .null => .null
  | .bool b => .bool b
  | .number n => .number n
  | .text s => .text (.ofString s)
  | .list items => .list (ofItems items)
  | .dict entries => .dict (ofEntries entries)
  | .other typeName => .other typeName

def ofItems : List JsonAssert.Data → List (Data String)
  | [] => []
  | d :: items => .ofData d :: ofItems items

def ofEntries : List (JsonAssert.Key × JsonAssert.Data) → List (Key × Data String)
  | [] => []
  | (k, d) :: entries => (.ofKey k, .ofData d) :: ofEntries entries
end

end JsonAssert.Raw
