import JsonAssert.Text.Quoted
import JsonAssert.Value.Basic

/-! One assertion: the subscripts that lead to a leaf, the leaf's literal, and the line of both. -/
namespace JsonAssert

/-- The subscript of a key; a truth value is written as it is, and so is a number. -/
def Key.subscript : Key → String
  | .text s => "[" ++ quoted s ++ "]"
  | .int n => "[" ++ toString n ++ "]"
  | .bool b => if b then "[True]" else "[False]"

def subscripted (parent : String) (k : Key) : String := parent ++ k.subscript

/-- A value that has no children. -/
inductive Leaf where
  | null
  | bool (b : Bool)
  | number (n : Number)
  | text (s : String)
  | emptyList
  | emptyDict
  deriving DecidableEq

namespace Leaf

def literal : Leaf → String
  | .null => "None"
  | .bool b => if b then "True" else "False"
  | .number n => n.text
  | .text s => quoted s
  | .emptyList => "[]"
  | .emptyDict => "\x7b\x7d"

/-- Null and the truth values are told apart by identity, all else by equality. -/
def relation : Leaf → String
  | .null => "is"
  | .bool _ => "is"
  | _ => "=="

def assertion (target : String) (l : Leaf) : String :=
  "assert " ++ target ++ " " ++ l.relation ++ " " ++ l.literal

end Leaf

/-- A container that has children, and so no literal. -/
inductive NoLiteral where
  | list | dict
  deriving DecidableEq, Repr

def NoLiteral.message : NoLiteral → String
  | .list => "no literal for VList"
  | .dict => "no literal for VDict"

namespace Value

def leaf : Value → Except NoLiteral Leaf
  | .null => .ok .null
  | .bool b => .ok (.bool b)
  | .number n => .ok (.number n)
  | .text s => .ok (.text s)
  | .list [] => .ok .emptyList
  | .dict [] => .ok .emptyDict
  | .list _ => .error .list
  | .dict _ => .error .dict

def literal (v : Value) : Except NoLiteral String := v.leaf.map Leaf.literal

def assertion (target : String) (v : Value) : Except NoLiteral String :=
  v.leaf.map (Leaf.assertion target)

end Value
end JsonAssert
