import JsonAssert.Json.Document

/-! Reports of a fault: its final cause, and its place as an offset and as a line and a column. -/
namespace JsonAssert.Json

/-- A place in a text. Offsets count from 0, lines and columns from 1. -/
structure Place where
  offset : Nat
  line : Nat
  column : Nat
  deriving DecidableEq, Repr

def Place.at (text : List Char) (offset : Nat) : Place :=
  let before := text.take offset
  ⟨offset, before.count '\n' + 1, (before.reverse.takeWhile (· != '\n')).length + 1⟩

structure Report where
  cause : Cause
  place : Place
  deriving DecidableEq, Repr

def Report.message (r : Report) : String :=
  s!"{r.cause.message}: line {r.place.line} column {r.place.column} (char {r.place.offset})"

/-- Whether a text is the beginning of one that fits a sequence of character classes. -/
def beginsAs : List (Char → Bool) → List Char → Bool
  | _, [] => true
  | [], _ :: _ => false
  | p :: pattern, c :: s => p c && beginsAs pattern s

def isHex (c : Char) : Bool := (hexDigit? c).isSome

/-- Less than a whole escape of four digits. -/
def shortEscape : List (Char → Bool) := [(· == '\\'), (· == 'u'), isHex, isHex, isHex]

/-- Less than two whole escapes of surrogates. -/
def shortPair : List (Char → Bool) :=
  [(· == '\\'), (· == 'u'), (· ∈ ['d', 'D']), fun c => (hexDigit? c).any (8 ≤ ·), isHex, isHex,
    (· == '\\'), (· == 'u'), (· ∈ ['d', 'D']), fun c => (hexDigit? c).any (12 ≤ ·), isHex]

/-- Whether a text might only have been cut short where its fault is: nothing follows, or only the
beginning of a literal or of an escape. -/
def Failure.cutShort (f : Failure) : Bool :=
  f.rest.isEmpty ||
    match f.cause with
    | .noLiteral _ =>
      [Literal.null, .true, .false].any fun l =>
        f.rest.isPrefixOf l.spelling && f.rest != l.spelling
    | .invalidEscape | .lowSurrogateFirst | .highSurrogateAlone | .invalidSecondEscape
    | .noLowSurrogate => beginsAs shortEscape f.rest || beginsAs shortPair f.rest
    | _ => false

/-- The report of a failure in a text. A text cut short is reported at its end; a byte order mark at
the very start goes before any other fault there. -/
def Failure.report (text : List Char) (f : Failure) : Report :=
  let offset := text.length - f.rest.length
  if f.cutShort then ⟨.endOfData, .at text text.length⟩
  else if offset = 0 ∧ text.head? = some '\ufeff' then ⟨.byteOrderMark, .at text 0⟩
  else ⟨f.cause, .at text offset⟩

/-- The data of a JSON text. -/
def parse (text : List Char) : Except Report Data :=
  if text.isEmpty then .error ⟨.emptyInput, .at text 0⟩
  else if text.all isBlank then .error ⟨.blankInput, .at text 0⟩
  else (document text).mapError (·.report text)

end JsonAssert.Json
