import JsonAssert.Number.Notation

/-! Numbers: integers of any size, and floats. -/
namespace JsonAssert

inductive Number where
  | int (n : Int)
  | float (x : Binary64)
  deriving DecidableEq

namespace Number

def text : Number → String
  | .int n => toString n
  | .float x => x.text

/-- The exact value of a finite number, counted in the units of the floats. -/
def units? : Number → Option Int
  | .int n => some (n * Binary64.unitsPerOne)
  | .float x => x.units?

/-- Equality of value: an integer and a float are compared exactly, the two zeros are equal, and a
number that is none equals nothing. -/
def same (a b : Number) : Bool :=
  match a.units?, b.units? with
  | some m, some n => m == n
  | none, none => a == b && a != .float .nan
  | _, _ => false

end Number
end JsonAssert
