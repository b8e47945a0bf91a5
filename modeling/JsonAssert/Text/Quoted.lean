/-! Quoted strings as JSON writes them: a quote, a backslash and the characters below U+0020 are
escaped, all others stand for themselves. -/
namespace JsonAssert
namespace Quoted

/-- The letter after the backslash, for the characters that have one. -/
def letter : Char → Option Char
  | '"' => some '"'
  | '\\' => some '\\'
  | '\x08' => some 'b'
  | '\t' => some 't'
  | '\n' => some 'n'
  | '\x0c' => some 'f'
  | '\r' => some 'r'
  | _ => none

def escape (c : Char) : List Char :=
  match letter c with
  | some l => ['\\', l]
  | none =>
    if c.toNat < 0x20 then
      ['\\', 'u', '0', '0', (c.toNat / 16).digitChar, (c.toNat % 16).digitChar]
    else [c]

def encode (text : List Char) : List Char := '"' :: (text.flatMap escape ++ ['"'])

end Quoted

def quoted (text : String) : String := .ofList (Quoted.encode text.toList)

end JsonAssert
