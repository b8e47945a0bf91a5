import JsonAssert.Text.Printable

/-! File paths as messages show them: in quotes, with everything invisible escaped. -/
namespace JsonAssert.Display

/-- `width` hexadecimal digits at least, small letters. -/
def hex (width n : Nat) : List Char :=
  let digits := Nat.toDigits 16 n
  List.replicate (width - digits.length) '0' ++ digits

def escape (quote : Char) (c : Char) : List Char :=
  if c = quote ∨ c = '\\' then ['\\', c]
  else if c = '\t' then ['\\', 't']
  else if c = '\n' then ['\\', 'n']
  else if c = '\r' then ['\\', 'r']
  else if printable c then [c]
  else if c.toNat < 0x100 then '\\' :: 'x' :: hex 2 c.toNat
  else if c.toNat < 0x10000 then '\\' :: 'u' :: hex 4 c.toNat
  else '\\' :: 'U' :: hex 8 c.toNat

/-- Single quotes, unless only they occur in the path. -/
def quoteFor (path : List Char) : Char :=
  if path.contains '\'' && !path.contains '"' then '"' else '\''

def path (path : String) : String :=
  let quote := quoteFor path.toList
  .ofList (quote :: (path.toList.flatMap (escape quote) ++ [quote]))

end JsonAssert.Display
