import Mathlib
import JsonAssert.Assertion.Leaf
import JsonAssert.Data.Branch
import JsonAssert.Data.Equality
import JsonAssert.Json.Contents
import JsonAssert.Json.Numeral

/-! What an assertion means: the reading of a line as a statement, and the value of the statement
when its name stands for some data. -/
namespace JsonAssert

namespace Script

/-! Names -/

/-- Beyond ASCII every character counts, so that no name is left out. -/
def isNameStart (c : Char) : Bool := c.isAlpha || c == '_' || 0x80 ≤ c.toNat

def isNamePart (c : Char) : Bool := isNameStart c || c.isDigit

/-- The words that look like names and cannot be given a value. -/
def reserved : List String :=
  ["False", "None", "True", "__debug__", "and", "as", "assert", "async", "await", "break", "class",
   "continue", "def", "del", "elif", "else", "except", "finally", "for", "from", "global", "if",
   "import", "in", "is", "lambda", "nonlocal", "not", "or", "pass", "raise", "return", "try",
   "while", "with", "yield"]

def IsName (s : String) : Prop :=
  s.toList.head?.any isNameStart = true ∧ s.toList.all isNamePart = true ∧ s ∉ reserved

instance (s : String) : Decidable (IsName s) := inferInstanceAs (Decidable (_ ∧ _ ∧ _))

/-- The name at the front of a text, as long as it can be. -/
def name? (s : List Char) : Option (String × List Char) :=
  let name := String.ofList (s.takeWhile isNamePart)
  if IsName name then some (name, s.dropWhile isNamePart) else none

/-! Strings -/

/-- Line ends and the null character stand nowhere in a line. -/
def isForbidden (c : Char) : Bool := c == '\n' || c == '\r' || c == '\x00'

/-- The character with a number; a surrogate is none. -/
def char? (n : ℕ) : Option Char := if n.isValidChar then some (.ofNat n) else none

/-- The character of some hexadecimal digits. -/
def hex? (width : ℕ) (s : List Char) : Option (List Char × List Char) :=
  if s.length < width then none
  else do
    let digits ← (s.take width).mapM Json.hexDigit?
    let c ← char? (digits.foldl (· * 16 + ·) 0)
    return ([c], s.drop width)

def isOctal (c : Char) : Bool := '0' ≤ c && c ≤ '7'

/-- The character of up to three octal digits. -/
def octal (s : List Char) : List Char × List Char :=
  let digits := (s.take 3).takeWhile isOctal
  ([.ofNat (digits.foldl (fun n c => n * 8 + (c.toNat - 48)) 0)], s.drop digits.length)

/-- The character that a letter or a mark stands for behind a backslash. -/
def letter : Char → Option Char
  | '\\' => some '\\'
  | '\'' => some '\''
  | '"' => some '"'
  | 'a' => some '\x07'
  | 'b' => some '\x08'
  | 'f' => some '\x0c'
  | 'n' => some '\n'
  | 'r' => some '\r'
  | 't' => some '\t'
  | 'v' => some '\x0b'
  | _ => none

/-- The characters of an escape, from behind its backslash. A backslash that escapes nothing stands
for itself; names of characters are not read. -/
def escape : List Char → Option (List Char × List Char)
  | [] => none
  | 'x' :: s => hex? 2 s
  | 'u' :: s => hex? 4 s
  | 'U' :: s => hex? 8 s
  | 'N' :: _ => none
  | c :: s =>
    if isForbidden c then none
    else if isOctal c then some (octal (c :: s))
    else
      match letter c with
      | some d => some ([d], s)
      | none => some (['\\', c], s)

theorem length_of_hex? {width : ℕ} {s cs rest : List Char} (h : hex? width s = some (cs, rest)) :
    rest.length ≤ s.length := by
  unfold hex? at h
  split_ifs at h
  simp only [bind, Option.bind_eq_some_iff, pure, Option.some.injEq, Prod.mk.injEq] at h
  obtain ⟨-, -, -, -, -, rfl⟩ := h
  simp

theorem length_of_escape {s cs rest : List Char} (h : escape s = some (cs, rest)) :
    rest.length < s.length := by
  unfold escape at h
  split at h
  · simp at h
  · exact Nat.lt_succ_of_le (length_of_hex? h)
  · exact Nat.lt_succ_of_le (length_of_hex? h)
  · exact Nat.lt_succ_of_le (length_of_hex? h)
  · simp at h
  · next c s _ _ _ _ =>
    split_ifs at h with hforbidden hoctal
    · obtain ⟨-, rfl⟩ : _ ∧ _ := by simpa [octal] using h
      simp [hoctal]
    · split at h <;> obtain ⟨-, rfl⟩ : _ ∧ _ := by simpa using h
      · simp
      · simp

/-- The characters up to the closing quote. -/
def contents : List Char → Option (List Char × List Char)
  | [] => none
  | '"' :: rest => some ([], rest)
  | '\\' :: s =>
    match _h : escape s with
    | none => none
    | some (cs, rest) => (contents rest).map fun (text, rest) => (cs ++ text, rest)
  | c :: s =>
    if isForbidden c then none
    else (contents s).map fun (text, rest) => (c :: text, rest)
termination_by s => s.length
decreasing_by
  · have hescape := length_of_escape _h
    simp only [List.length_cons]
    omega
  · simp only [List.length_cons]
    omega

/-! Subscripts -/

/-- The key of a subscript, from behind its opening bracket: a quoted text, or a number. -/
def subscript? : List Char → Option (Key × List Char)
  | '"' :: s =>
    match contents s with
    | some (text, ']' :: rest) => some (.text (.ofList text), rest)
    | _ => none
  | s =>
    match Json.whole s with
    | .ok (digits, ']' :: rest) => some (.int (Numeral.natural digits), rest)
    | _ => none

/-- The keys of the subscripts at the front of a text. Each takes a character at least, so a round
for each character is enough. -/
def subscripts : ℕ → List Char → Option (List Key × List Char)
  | rounds + 1, '[' :: s => do
    let (k, rest) ← subscript? s
    let (keys, rest) ← subscripts rounds rest
    return (k :: keys, rest)
  | _, s => some ([], s)

/-! Literals -/

/-- The number of a numeral: a whole one of any size when it has digits alone, else the nearest
float. -/
def number (n : Numeral) : Number :=
  match n.fraction, n.exponent with
  | none, none => .int (if n.negative then -Numeral.natural n.whole else Numeral.natural n.whole)
  | _, _ => .float n.float

def word? (s : List Char) : Option Leaf :=
  [("None".toList, .null), ("True".toList, .bool true), ("False".toList, .bool false),
    ("[]".toList, .emptyList), ("\x7b\x7d".toList, .emptyDict)].lookup s

/-- A text that is one literal. -/
def literal? : List Char → Option Leaf
  | '"' :: s =>
    match contents s with
    | some (text, []) => some (.text (.ofList text))
    | _ => none
  | s =>
    match Json.numeral s with
    | .ok (n, []) => some (.number (number n))
    | _ => word? s

/-! Statements -/

inductive Relation where
  | identity | equality
  deriving DecidableEq, Repr

def Relation.spelling : Relation → List Char
  | .identity => " is ".toList
  | .equality => " == ".toList

structure Statement where
  name : String
  path : List Key
  relation : Relation
  literal : Leaf
  deriving DecidableEq

/-- The relation at the front of a text. -/
def relation? (s : List Char) : Option (Relation × List Char) :=
  match s.dropPrefix? Relation.identity.spelling with
  | some rest => some (.identity, rest)
  | none => (s.dropPrefix? Relation.equality.spelling).map (.equality, ·)

/-- A line that is one assertion. -/
def statement? (line : List Char) : Option Statement := do
  let s ← line.dropPrefix? "assert ".toList
  let (name, s) ← name? s
  let (path, s) ← subscripts s.length s
  let (relation, s) ← relation? s
  let literal ← literal? s
  return ⟨name, path, relation, literal⟩

end Script

/-- The data that a literal stands for. -/
def Leaf.data : Leaf → Data
  | .null => .null
  | .bool b => .bool b
  | .number n => .number n
  | .text s => .text s
  | .emptyList => .list []
  | .emptyDict => .dict []

namespace Script

/-- Identity with one of the three objects that there is one of; with anything else it is
undetermined. -/
def identical? (d : Data) : Leaf → Option Bool
  | .null => some (d matches .null)
  | .bool b => some (match d with | .bool c => b == c | _ => false)
  | _ => none

def Relation.holds? (d : Data) (l : Leaf) : Relation → Option Bool
  | .identity => identical? d l
  | .equality => some (d.same l.data)

/-- Whether what is asserted holds when the name stands for some data. Nothing is known where the
subscripts lead nowhere. -/
def Statement.holds? (st : Statement) (d : Data) : Option Bool := do
  let x ← Tree.at? st.path d
  st.relation.holds? x st.literal

end Script

end JsonAssert
