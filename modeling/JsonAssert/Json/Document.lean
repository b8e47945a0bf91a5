import JsonAssert.Data.Basic
import JsonAssert.Json.Contents
import JsonAssert.Json.Numeral

/-! JSON values and documents. A container is read by a loop over its items; the reader of the items
is the reader of values with one level of nesting less. -/
namespace JsonAssert.Json

def isBlank (c : Char) : Bool := c == ' ' || c == '\t' || c == '\n' || c == '\r'

def skipBlanks (s : List Char) : List Char := s.dropWhile isBlank

/-- How many containers may be open at once. -/
def maxDepth : Nat := 1024

def Literal.data : Literal → Data
  | .null => .null
  | .true => .bool Bool.true
  | .false => .bool Bool.false

def literal (l : Literal) : Reader Data := fun s =>
  if l.spelling.isPrefixOf s then .ok (l.data, s.drop l.spelling.length)
  else .error ⟨.noLiteral l, s⟩

/-- How a kind of container ends, and what is wrong where an item or the end is missing. -/
structure Closing where
  mark : Char
  noItem : Cause
  noEnd : Cause

def Closing.array : Closing := ⟨']', .noValue, .noElementEnd⟩

def Closing.object : Closing := ⟨'\x7d', .noKey, .noMemberEnd⟩

/-- The items of a container from the first one on, with commas between them, and the closing mark.
Every item takes a character at least, so a round for each character of the text is enough. -/
def separated {α : Type} (closing : Closing) (item : Reader α) : Nat → Reader (List α)
  | 0, s => .error ⟨closing.noItem, s⟩
  | rounds + 1, s =>
    match item s with
    | .error f => .error f
    | .ok (x, s) =>
      match skipBlanks s with
      | [] => .error ⟨closing.noEnd, []⟩
      | c :: rest =>
        if c = closing.mark then .ok ([x], rest)
        else if c = ',' then
          if (skipBlanks rest).head? = some closing.mark then .error ⟨.trailingComma, c :: rest⟩
          else
            match separated closing item rounds (skipBlanks rest) with
            | .error f => .error f
            | .ok (xs, rest) => .ok (x :: xs, rest)
        else .error ⟨closing.noEnd, c :: rest⟩

/-- The items of a container, from behind its opening mark. -/
def items {α : Type} (closing : Closing) (item : Reader α) (rounds : Nat) : Reader (List α) :=
  fun s =>
    if (skipBlanks s).head? = some closing.mark then .ok ([], (skipBlanks s).tail)
    else separated closing item rounds (skipBlanks s)

/-- One member of an object, from its key to its value. -/
def member (item : Reader Data) : Reader (Key × Data)
  | '"' :: s =>
    match contents s with
    | .error f => .error f
    | .ok (key, s) =>
      match skipBlanks s with
      | ':' :: s =>
        match item (skipBlanks s) with
        | .error f => .error f
        | .ok (x, s) => .ok ((.text (.ofList key), x), s)
      | other => .error ⟨.noColon, other⟩
  | s => .error ⟨.noKey, s⟩

/-- An array, from behind its opening bracket. -/
def array (item : Reader Data) (rounds : Nat) : Reader Data := fun s =>
  match items .array item rounds s with
  | .error f => .error f
  | .ok (xs, rest) => .ok (.list xs, rest)

/-- An object, from behind its opening brace. -/
def object (item : Reader Data) (rounds : Nat) : Reader Data := fun s =>
  match items .object (member item) rounds s with
  | .error f => .error f
  | .ok (entries, rest) => .ok (.dict (Dict.ofList entries), rest)

/-- A value that is no container. -/
def scalar : Reader Data
  | '"' :: s =>
    match contents s with
    | .error f => .error f
    | .ok (text, rest) => .ok (.text (.ofList text), rest)
  | 'n' :: s => literal .null ('n' :: s)
  | 't' :: s => literal .true ('t' :: s)
  | 'f' :: s => literal .false ('f' :: s)
  | s =>
    if s.head?.any fun c => c.isDigit || c == '-' || c == '+' || c == '.' then
      match number s with
      | .error f => .error f
      | .ok (n, rest) => .ok (.number n, rest)
    else .error ⟨.noValue, s⟩

/-- A value whose containers nest at most as deep as the second number says. -/
def value (rounds : Nat) : Nat → Reader Data
  | 0, '[' :: s => .error ⟨.tooDeep, s⟩
  | 0, '\x7b' :: s => .error ⟨.tooDeep, s⟩
  | depth + 1, '[' :: s => array (value rounds depth) rounds s
  | depth + 1, '\x7b' :: s => object (value rounds depth) rounds s
  | _, s => scalar s

/-- A whole text: one value, and nothing but blanks around it. -/
def document (s : List Char) : Except Failure Data :=
  match value s.length maxDepth (skipBlanks s) with
  | .error f => .error f
  | .ok (d, rest) =>
    match skipBlanks rest with
    | [] => .ok d
    | extra => .error ⟨.extraContent, extra⟩

end JsonAssert.Json
