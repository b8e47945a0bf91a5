import JsonAssert.Json.Failure
import JsonAssert.Number.Numeral

/-! Numerals at the front of a text, read part by part. -/
namespace JsonAssert.Json

/-- The longest run of digits at the front, and what follows it. -/
def digits (s : List Char) : List Char × List Char :=
  (s.takeWhile Char.isDigit, s.dropWhile Char.isDigit)

def minus : List Char → Bool × List Char
  | '-' :: s => (true, s)
  | s => (false, s)

/-- A sign that may be left out. -/
def sign : List Char → Bool × List Char
  | '-' :: s => (true, s)
  | '+' :: s => (false, s)
  | s => (false, s)

/-- The digits before the point, a zero only when it is the only one. -/
def whole : Reader (List Char) := fun s =>
  match digits s with
  | ([], rest) => .error ⟨.noDigit, rest⟩
  | ('0' :: _ :: _, _) => .error ⟨.leadingZero, s⟩
  | found => .ok found

def fraction : Reader (Option (List Char))
  | '.' :: s =>
    match digits s with
    | ([], rest) => .error ⟨.noFractionDigit, rest⟩
    | (found, rest) => .ok (some found, rest)
  | s => .ok (none, s)

def exponentDigits : Reader (Option (Bool × List Char)) := fun s =>
  let (negative, s) := sign s
  match digits s with
  | ([], rest) => .error ⟨.noExponentDigit, rest⟩
  | (found, rest) => .ok (some (negative, found), rest)

def exponent : Reader (Option (Bool × List Char))
  | 'e' :: s => exponentDigits s
  | 'E' :: s => exponentDigits s
  | s => .ok (none, s)

def numeral : Reader Numeral := fun s =>
  let (negative, s) := minus s
  match whole s with
  | .error f => .error f
  | .ok (whole, s) =>
    match fraction s with
    | .error f => .error f
    | .ok (fraction, s) =>
      match exponent s with
      | .error f => .error f
      | .ok (exponent, s) => .ok (⟨negative, whole, fraction, exponent⟩, s)

/-- The number of a numeral; one too large for a float is a fault of the whole numeral. -/
def number : Reader Number := fun s =>
  match numeral s with
  | .error f => .error f
  | .ok (n, rest) =>
    match n.number? with
    | some x => .ok (x, rest)
    | none => .error ⟨.infiniteNumber, s⟩

end JsonAssert.Json
