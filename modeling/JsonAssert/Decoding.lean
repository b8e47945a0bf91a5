import JsonAssert.Json.Report
import JsonAssert.Log
import JsonAssert.Text.Utf8

/-! Decoding: a source read as one object, or as an array of objects. -/
namespace JsonAssert

/-! Blanks that are passed over in search of the first mark of a document. Characters and bytes have
different ones, and both have more than JSON allows between its tokens. -/

namespace Blank

/-- The white space of Unicode, with the four separators U+001C to U+001F. -/
def character (c : Char) : Bool :=
  let n := c.toNat
  (0x09 ≤ n && n ≤ 0x0D) || (0x1C ≤ n && n ≤ 0x20) || n == 0x85 || n == 0xA0 || n == 0x1680 ||
    (0x2000 ≤ n && n ≤ 0x200A) || n == 0x2028 || n == 0x2029 || n == 0x202F || n == 0x205F ||
    n == 0x3000

/-- The white space of ASCII. -/
def byte (b : UInt8) : Bool := (0x09 ≤ b && b ≤ 0x0D) || b == 0x20

end Blank

/-! Sources -/

/-- A JSON text as characters, or as the bytes of a file. -/
inductive Source where
  | text (s : String)
  | bytes (b : List UInt8)

namespace Source

/-- The length in the source's own units. -/
def length : Source → Nat
  | .text s => s.length
  | .bytes b => b.length

/-- Whether the first mark that is not blank opens an array. -/
def isArray : Source → Bool
  | .text s => (s.toList.dropWhile Blank.character).head? == some '['
  | .bytes b => (b.dropWhile Blank.byte).head? == some 0x5B

def characters : Source → Except Utf8.Malformed (List Char)
  | .text s => .ok s.toList
  | .bytes b => Utf8.decode b

/-- Bytes that are no text are reported at the start, wherever the first bad one is. -/
def parse (source : Source) : Except Json.Report Data :=
  match source.characters with
  | .ok chars => Json.parse chars
  | .error _ => .error ⟨.invalidUtf8, .at [] 0⟩

end Source

/-- A value of the wrong kind, where an object or an array has to be. -/
inductive Mismatch where
  | noObject (actual : String)
  | noArray (actual : String)
  | noObjectAt (index : Nat) (actual : String)
  deriving DecidableEq, Repr

namespace Mismatch

def expected : Mismatch → String
  | .noArray _ => "array"
  | _ => "object"

def actual : Mismatch → String
  | .noObject kind => kind
  | .noArray kind => kind
  | .noObjectAt _ kind => kind

def message : Mismatch → String
  | .noObject kind => "expected a JSON object, got " ++ kind
  | .noArray kind => "expected a JSON array, got " ++ kind
  | .noObjectAt index kind => s!"expected a JSON object at index {index}, got {kind}"

end Mismatch

inductive DecodeError where
  | malformed (report : Json.Report)
  | mismatch (m : Mismatch)
  deriving DecidableEq, Repr

def DecodeError.message : DecodeError → String
  | .malformed report => "invalid JSON: " ++ report.message
  | .mismatch m => m.message

/-- The entries of a decoded object. -/
abbrev Record := Dict Data

def Data.asRecord : Data → Except Mismatch Record
  | .dict entries => .ok entries
  | d => .error (.noObject d.kind)

/-- The elements as records, counted from `index`, up to the first that is none. -/
def recordsFrom (index : Nat) : List Data → Except Mismatch (List Record)
  | [] => .ok []
  | .dict entries :: rest => (recordsFrom (index + 1) rest).map (entries :: ·)
  | d :: _ => .error (.noObjectAt index d.kind)

def Data.asRecords : Data → Except Mismatch (List Record)
  | .list items => recordsFrom 0 items
  | d => .error (.noArray d.kind)

/-- Reads a source in the shape that `accept` asks for. It is logged before it is read. -/
def decodeWith {α : Type} (name : String) (accept : Data → Except Mismatch α) (source : Source) :
    Traced DecodeError α := do
  .record .decoder [s!"{name}: {source.length} chars"]
  let d ← .ofExcept (source.parse.mapError .malformed)
  .ofExcept ((accept d).mapError .mismatch)

def decodeObject : Source → Traced DecodeError Record :=
  decodeWith "decode_object" Data.asRecord

def decodeArray : Source → Traced DecodeError (List Record) :=
  decodeWith "decode_array" Data.asRecords

/-- The records of either shape; its first mark says which. -/
def decode (source : Source) : Traced DecodeError (List Record) :=
  if source.isArray then decodeArray source
  else do return [← decodeObject source]

end JsonAssert
