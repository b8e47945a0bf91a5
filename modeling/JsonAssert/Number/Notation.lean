import JsonAssert.Number.Shortest

/-! The written form of a float. -/
namespace JsonAssert.Binary64

def sign (negative : Bool) : String := if negative then "-" else ""

def zeros (n : Nat) : List Char := List.replicate n '0'

/-- The digits of a whole number, without the zeros at its end. -/
def significantDigits (n : Nat) : List Char :=
  ((Nat.toDigits 10 n).reverse.dropWhile (· == '0')).reverse

/-- Digits with the point after the first `1 + exponent` of them; one digit at least stands on each
side of the point. -/
def positional (digits : List Char) : Int → List Char
  | .ofNat e =>
    if digits.length ≤ e + 1 then digits ++ zeros (e + 1 - digits.length) ++ ['.', '0']
    else digits.take (e + 1) ++ '.' :: digits.drop (e + 1)
  | .negSucc e => '0' :: '.' :: (zeros e ++ digits)

/-- One digit before the point, no point if that is all, and an exponent of two digits or more with
its sign. -/
def scientific (digits : List Char) (exponent : Int) : List Char :=
  let mantissa := match digits with
    | first :: second :: more => first :: '.' :: second :: more
    | short => short
  let size := Nat.toDigits 10 exponent.natAbs
  mantissa ++ 'e' :: (if exponent < 0 then '-' else '+') :: (zeros (2 - size.length) ++ size)

/-- The digits of a decimal, positional when the first digit counts at least `10 ^ -4` and less than
`10 ^ 16`. -/
def layout (d : Decimal) : List Char :=
  let exponent := d.exponent + (Nat.toDigits 10 d.digits).length - 1
  let digits := significantDigits d.digits
  if -4 ≤ exponent ∧ exponent < 16 then positional digits exponent
  else scientific digits exponent

/-- The shortest text that reads back as the float. -/
def text : Binary64 → String
  | .finite negative significand scale _ =>
    sign negative ++
      (if significand = 0 then "0.0" else .ofList (layout (Shortest.decimal significand scale)))
  | .infinite negative => sign negative ++ "inf"
  | .nan => "nan"

end JsonAssert.Binary64
