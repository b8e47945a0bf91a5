import JsonAssert.Value.Basic

/-! Equality of values: kinds are kept apart, numbers compare exactly, and the order of a dictionary
does not matter. -/
namespace JsonAssert.Value

mutual
def same : Value → Value → Bool
  | .null, b => match b with | .null => true | _ => false
  | .bool x, b => match b with | .bool y => x == y | _ => false
  | .number m, b => match b with | .number n => m.same n | _ => false
  | .text s, b => match b with | .text t => s == t | _ => false
  | .list xs, b => match b with | .list ys => sameItems xs ys | _ => false
  | .dict xs, b =>
    match b with
    | .dict ys => xs.length == ys.length && sameEntries xs ys
    | _ => false

def sameItems : List Value → List Value → Bool
  | [], ys => ys.isEmpty
  | x :: xs, ys => match ys with | y :: ys => x.same y && sameItems xs ys | [] => false

/-- Every entry of the first is in the second. -/
def sameEntries : List (Key × Value) → Dict Value → Bool
  | [], _ => true
  | (k, x) :: xs, ys => (match ys.get? k with | some y => x.same y | none => false) &&
      sameEntries xs ys
end

end JsonAssert.Value
