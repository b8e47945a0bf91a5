import JsonAssert.Data.Basic

/-! Equality of data by value: truth values count as 0 and 1, numbers compare exactly, and the order
of a dictionary does not matter. -/
namespace JsonAssert.Data

def number? : Data → Option Number
  | .bool b => some (.int b.toInt)
  | .number n => some n
  | _ => none

mutual
def same : Data → Data → Bool
  | .null, b => match b with | .null => true | _ => false
  | .bool x, b => b.number?.any (Number.int x.toInt).same
  | .number m, b => b.number?.any m.same
  | .text s, b => match b with | .text t => s == t | _ => false
  | .list xs, b => match b with | .list ys => sameItems xs ys | _ => false
  | .dict xs, b =>
    match b with
    | .dict ys => xs.length == ys.length && sameEntries xs ys
    | _ => false
  | .other s, b => match b with | .other t => s == t | _ => false

def sameItems : List Data → List Data → Bool
  | [], ys => ys.isEmpty
  | x :: xs, ys => match ys with | y :: ys => x.same y && sameItems xs ys | [] => false

/-- Every entry of the first is in the second. -/
def sameEntries : List (Key × Data) → Dict Data → Bool
  | [], _ => true
  | (k, x) :: xs, ys => (match ys.get? k with | some y => x.same y | none => false) &&
      sameEntries xs ys
end

end JsonAssert.Data
