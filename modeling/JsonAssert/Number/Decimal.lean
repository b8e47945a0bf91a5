import JsonAssert.Number.Binary64

/-! Decimal numbers and their reading as floats. -/
namespace JsonAssert

-- Powers are those of the core library, whatever else is in scope.
attribute [local instance (2000)] instPowNat

/-- The number `digits * 10 ^ exponent`. -/
structure Decimal where
  digits : Nat
  exponent : Int
  deriving DecidableEq, Repr

/-- The float nearest to a decimal. Far outside the range of the floats the answer is plain from the
exponent, and the powers of ten are left alone. -/
def Binary64.ofDecimal (negative : Bool) (d : Decimal) : Binary64 :=
  if d.digits = 0 then zero negative
  else if 400 < d.exponent then infinite negative
  else if d.exponent + d.digits.log2 + 1 < -400 then zero negative
  else ofRatio negative (d.digits * 10 ^ d.exponent.toNat) (10 ^ (-d.exponent).toNat)

end JsonAssert
