/-! Binary64 floats as exact integers: a finite float is a whole number of units of `2 ^ -1074`. -/
namespace JsonAssert

-- Powers are those of the core library, whatever else is in scope.
attribute [local instance (2000)] instPowNat

namespace Binary64

/-- The bits of a significand. -/
def precision : Nat := 53

/-- The binary digits of the unit after the point. -/
def unitBits : Nat := 1074

def maxScale : Nat := 2045

/-- `significand * 2 ^ scale` units, written in the one way that the format has for them. -/
structure Canonical (significand scale : Nat) : Prop where
  lt : significand < 2 ^ precision
  normal : 2 ^ (precision - 1) ≤ significand ∨ scale = 0
  le : scale ≤ maxScale

instance (significand scale : Nat) : Decidable (Canonical significand scale) :=
  decidable_of_iff
    (significand < 2 ^ precision ∧ (2 ^ (precision - 1) ≤ significand ∨ scale = 0) ∧
      scale ≤ maxScale)
    ⟨fun ⟨lt, normal, le⟩ => ⟨lt, normal, le⟩, fun ⟨lt, normal, le⟩ => ⟨lt, normal, le⟩⟩

end Binary64

inductive Binary64 where
  | finite (negative : Bool) (significand scale : Nat)
      (canonical : Binary64.Canonical significand scale)
  | infinite (negative : Bool)
  | nan
  deriving DecidableEq

namespace Binary64

/-- One over the unit in which magnitudes are counted. -/
def unitsPerOne : Nat := 2 ^ unitBits

def zero (negative : Bool) : Binary64 := .finite negative 0 0 ⟨by decide, .inr rfl, by decide⟩

/-- The units of a finite float, with its sign. -/
def units? : Binary64 → Option Int
  | .finite true significand scale _ => some (-(significand * 2 ^ scale : Nat))
  | .finite false significand scale _ => some (significand * 2 ^ scale : Nat)
  | _ => none

/-- The whole number nearest to `n / d`, a half going to the even neighbour. -/
def roundHalfEven (n d : Nat) : Nat :=
  let low := n / d
  let rest := n % d
  if 2 * rest < d then low
  else if d < 2 * rest then low + 1
  else low + low % 2

/-- The float of a significand and a scale, infinite when the scale is out of range. -/
def pack (negative : Bool) (significand scale : Nat) : Binary64 :=
  if h : Canonical significand scale then .finite negative significand scale h
  else .infinite negative

/-- The float nearest to `n / d`, a half going to the even significand. The scale is the number of
bits by which `n / d` units exceed a significand; rounding up may carry into one bit more. -/
def ofRatio (negative : Bool) (n d : Nat) : Binary64 :=
  let scale := (n * unitsPerOne / d).log2 + 1 - precision
  let significand := roundHalfEven (n * unitsPerOne) (d * 2 ^ scale)
  if significand = 2 ^ precision then pack negative (2 ^ (precision - 1)) (scale + 1)
  else pack negative significand scale

end Binary64
end JsonAssert
