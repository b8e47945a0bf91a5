/-! What can be wrong with a JSON text, and where a reader stopped. -/
namespace JsonAssert.Json

inductive Literal where
  | null | true | false
  deriving DecidableEq, Repr

def Literal.spelling : Literal → List Char
  | .null => ['n', 'u', 'l', 'l']
  | .true => ['t', 'r', 'u', 'e']
  | .false => ['f', 'a', 'l', 's', 'e']

inductive Cause where
  | invalidUtf8
  | emptyInput
  | blankInput
  | byteOrderMark
  | endOfData
  | noValue
  | noLiteral (l : Literal)
  | noDigit
  | leadingZero
  | noFractionDigit
  | noExponentDigit
  | infiniteNumber
  | controlCharacter
  | invalidEscape
  | lowSurrogateFirst
  | highSurrogateAlone
  | invalidSecondEscape
  | noLowSurrogate
  | tooDeep
  | trailingComma
  | noElementEnd
  | noKey
  | noColon
  | noMemberEnd
  | extraContent
  deriving DecidableEq, Repr

def Cause.message : Cause → String
  | .invalidUtf8 => "str is not valid UTF-8: surrogates not allowed"
  | .emptyInput => "Input is a zero-length, empty document"
  | .blankInput => "input data is empty"
  | .byteOrderMark => "UTF-8 byte order mark (BOM) is not supported"
  | .endOfData => "unexpected end of data"
  | .noValue => "unexpected character, expected a JSON value"
  | .noLiteral l => "invalid literal, expected '" ++ .ofList l.spelling ++ "'"
  | .noDigit => "no digit after sign"
  | .leadingZero => "number with leading zero is not allowed"
  | .noFractionDigit => "no digit after decimal point"
  | .noExponentDigit => "no digit after exponent sign"
  | .infiniteNumber => "number is infinity when parsed as double"
  | .controlCharacter => "unexpected control character in string"
  | .invalidEscape => "invalid escaped sequence in string"
  | .lowSurrogateFirst => "invalid high surrogate in string"
  | .highSurrogateAlone => "no low surrogate in string"
  | .invalidSecondEscape => "invalid escape in string"
  | .noLowSurrogate => "invalid low surrogate in string"
  | .tooDeep => "depth limit exceeded"
  | .trailingComma => "trailing comma is not allowed"
  | .noElementEnd => "unexpected character, expected ',' or ']'"
  | .noKey => "unexpected character, expected a string key"
  | .noColon => "unexpected character, expected ':' after key"
  | .noMemberEnd => "unexpected character, expected ',' or '\x7d'"
  | .extraContent => "unexpected content after document"

/-- A fault and the part of the text that starts with it. -/
structure Failure where
  cause : Cause
  rest : List Char
  deriving DecidableEq, Repr

/-- A reader takes something off the front of a text. -/
abbrev Reader (α : Type) := List Char → Except Failure (α × List Char)

end JsonAssert.Json
