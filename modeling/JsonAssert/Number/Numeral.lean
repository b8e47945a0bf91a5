import JsonAssert.Number.Basic

/-! Numerals: the written parts of a number, and the number they name. -/
namespace JsonAssert

-- Powers are those of the core library, whatever else is in scope.
attribute [local instance (2000)] instPowNat

/-- A numeral by its parts, each a list of digits. -/
structure Numeral where
  negative : Bool
  whole : List Char
  fraction : Option (List Char)
  exponent : Option (Bool × List Char)
  deriving DecidableEq, Repr

namespace Numeral

def natural (digits : List Char) : Nat := Nat.ofDigitChars 10 digits 0

def power (n : Numeral) : Int :=
  match n.exponent with
  | none => 0
  | some (true, digits) => -natural digits
  | some (false, digits) => natural digits

/-- The exact value of a numeral without its sign. -/
def decimal (n : Numeral) : Decimal :=
  let fraction := n.fraction.getD []
  ⟨natural (n.whole ++ fraction), n.power - fraction.length⟩

def float (n : Numeral) : Binary64 := .ofDecimal n.negative n.decimal

/-- The bits of the integers that are read exactly. -/
def integerBits : Nat := 64

/-- The integer of a numeral that has neither fraction nor exponent and fits in the bits of an
integer, one of which is the sign of a negative one. -/
def int? (n : Numeral) : Option Int :=
  match n.fraction, n.exponent with
  | none, none =>
    let size := natural n.whole
    if n.negative then if size ≤ 2 ^ (integerBits - 1) then some (-size) else none
    else if size < 2 ^ integerBits then some size else none
  | _, _ => none

/-- The number of a numeral: an exact integer where there is one, otherwise the nearest float.
There is none when that float is infinite. -/
def number? (n : Numeral) : Option Number :=
  match n.int? with
  | some i => some (.int i)
  | none =>
    match n.float with
    | .infinite _ => none
    | x => some (.float x)

end Numeral
end JsonAssert
