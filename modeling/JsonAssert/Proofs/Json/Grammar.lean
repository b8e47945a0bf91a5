import JsonAssert.Json.Document

/-! The grammar of JSON texts, as relations between phrases and the characters that spell them, and
the data that a phrase stands for. -/
namespace JsonAssert.Grammar

def IsBlank (s : List Char) : Prop := ∀ c ∈ s, c = ' ' ∨ c = '\t' ∨ c = '\n' ∨ c = '\r'

/-- A structural character with the blanks around it. -/
inductive IsMark (mark : Char) : List Char → Prop
  | mk {before after : List Char} : IsBlank before → IsBlank after →
      IsMark mark (before ++ mark :: after)

/-! Numerals -/

def IsDigit (c : Char) : Prop := '0' ≤ c ∧ c ≤ '9'

instance (c : Char) : Decidable (IsDigit c) := inferInstanceAs (Decidable (_ ∧ _))

def IsDigits (s : List Char) : Prop := s ≠ [] ∧ ∀ c ∈ s, IsDigit c

/-- A zero stands only alone at the front. -/
def IsWhole (s : List Char) : Prop := IsDigits s ∧ (s.head? = some '0' → s = ['0'])

inductive IsSign : Bool → List Char → Prop
  | none : IsSign false []
  | minus : IsSign true ['-']

inductive IsFraction : Option (List Char) → List Char → Prop
  | none : IsFraction none []
  | some {digits : List Char} : IsDigits digits → IsFraction (some digits) ('.' :: digits)

def IsExponentMark (c : Char) : Prop := c = 'e' ∨ c = 'E'

instance (c : Char) : Decidable (IsExponentMark c) := inferInstanceAs (Decidable (_ ∨ _))

inductive IsExponent : Option (Bool × List Char) → List Char → Prop
  | none : IsExponent none []
  | bare {e : Char} {digits : List Char} : IsExponentMark e → IsDigits digits →
      IsExponent (some (false, digits)) (e :: digits)
  | plus {e : Char} {digits : List Char} : IsExponentMark e → IsDigits digits →
      IsExponent (some (false, digits)) (e :: '+' :: digits)
  | minus {e : Char} {digits : List Char} : IsExponentMark e → IsDigits digits →
      IsExponent (some (true, digits)) (e :: '-' :: digits)

inductive IsNumeral : Numeral → List Char → Prop
  | mk {negative : Bool} {whole sign fractionText exponentText : List Char}
      {fraction : Option (List Char)} {exponent : Option (Bool × List Char)} :
      IsSign negative sign → IsWhole whole → IsFraction fraction fractionText →
      IsExponent exponent exponentText →
      IsNumeral ⟨negative, whole, fraction, exponent⟩
        (sign ++ whole ++ fractionText ++ exponentText)

/-! Strings -/

/-- A character of a string as it is spelled: as it is, by a letter behind a backslash, or by four
hexadecimal digits. -/
inductive Piece where
  | raw (c : Char)
  | letter (c : Char)
  | code (a b c d : Char)

def IsHexDigit (c : Char) : Prop :=
  ('0' ≤ c ∧ c ≤ '9') ∨ ('a' ≤ c ∧ c ≤ 'f') ∨ ('A' ≤ c ∧ c ≤ 'F')

def hexValue (c : Char) : Nat :=
  if c ≤ '9' then c.toNat - 48 else if c ≤ 'F' then c.toNat - 55 else c.toNat - 87

namespace Piece

def spelling : Piece → List Char
  | raw c => [c]
  | letter c => ['\\', c]
  | code a b c d => ['\\', 'u', a, b, c, d]

def IsAllowed : Piece → Prop
  | raw c => 0x20 ≤ c.toNat ∧ c ≠ '"' ∧ c ≠ '\\'
  | letter c => c ∈ ['"', '\\', '/', 'b', 'f', 'n', 'r', 't']
  | code a b c d => IsHexDigit a ∧ IsHexDigit b ∧ IsHexDigit c ∧ IsHexDigit d

/-- The code point of a piece; four digits may name half of a pair of surrogates. -/
def unit : Piece → Nat
  | raw c => c.toNat
  | letter c => ((Json.unescape c).getD c).toNat
  | code a b c d => ((hexValue a * 16 + hexValue b) * 16 + hexValue c) * 16 + hexValue d

end Piece

inductive IsString : List Piece → List Char → Prop
  | mk {pieces : List Piece} : (∀ p ∈ pieces, p.IsAllowed) →
      IsString pieces ('"' :: (pieces.flatMap Piece.spelling ++ ['"']))

/-- Every surrogate is half of a pair, the high one directly before the low one. -/
inductive IsPaired : List Piece → Prop
  | nil : IsPaired []
  | single {p : Piece} {pieces : List Piece} : Json.isHighSurrogate p.unit = false →
      Json.isLowSurrogate p.unit = false → IsPaired pieces → IsPaired (p :: pieces)
  | pair {p q : Piece} {pieces : List Piece} : Json.isHighSurrogate p.unit = true →
      Json.isLowSurrogate q.unit = true → IsPaired pieces → IsPaired (p :: q :: pieces)

/-- The characters that pieces stand for, one for a pair of surrogates. -/
def characters : List Piece → List Char
  | [] => []
  | [p] => [Char.ofNat p.unit]
  | p :: q :: pieces =>
    if Json.isHighSurrogate p.unit then Json.joinSurrogates p.unit q.unit :: characters pieces
    else Char.ofNat p.unit :: characters (q :: pieces)

/-! Values -/

inductive Phrase where
  | literal (l : Json.Literal)
  | numeral (n : Numeral)
  | string (pieces : List Piece)
  | array (items : List Phrase)
  | object (members : List (List Piece × Phrase))

instance : Inhabited Phrase := ⟨.literal .null⟩

/-- One phrase or more, with a comma between each two. -/
inductive IsSeparated {α : Type} (IsItem : α → List Char → Prop) : List α → List Char → Prop
  | one {x : α} {s : List Char} : IsItem x s → IsSeparated IsItem [x] s
  | more {x : α} {xs : List α} {s comma t : List Char} : IsItem x s → IsMark ',' comma →
      IsSeparated IsItem xs t → IsSeparated IsItem (x :: xs) (s ++ comma ++ t)

inductive IsMember (IsItem : Phrase → List Char → Prop) : List Piece × Phrase → List Char → Prop
  | mk {key : List Piece} {x : Phrase} {s colon t : List Char} : IsString key s →
      IsMark ':' colon → IsItem x t → IsMember IsItem (key, x) (s ++ colon ++ t)

inductive IsValue : Phrase → List Char → Prop
  | literal (l : Json.Literal) : IsValue (.literal l) l.spelling
  | numeral {n : Numeral} {s : List Char} : IsNumeral n s → IsValue (.numeral n) s
  | string {pieces : List Piece} {s : List Char} : IsString pieces s → IsValue (.string pieces) s
  | emptyArray {start close : List Char} : IsMark '[' start → IsMark ']' close →
      IsValue (.array []) (start ++ close)
  | array {items : List Phrase} {start s close : List Char} : IsMark '[' start →
      IsSeparated IsValue items s → IsMark ']' close → IsValue (.array items) (start ++ s ++ close)
  | emptyObject {start close : List Char} : IsMark '\x7b' start → IsMark '\x7d' close →
      IsValue (.object []) (start ++ close)
  | object {members : List (List Piece × Phrase)} {start s close : List Char} :
      IsMark '\x7b' start → IsSeparated (IsMember IsValue) members s → IsMark '\x7d' close →
      IsValue (.object members) (start ++ s ++ close)

inductive IsText : Phrase → List Char → Prop
  | mk {t : Phrase} {before s after : List Char} : IsBlank before → IsValue t s → IsBlank after →
      IsText t (before ++ s ++ after)

namespace Phrase

/-- Containers nest at most as deep as the number says; every string, keys included, has the first
property, and every numeral the second. -/
inductive Fits (S : List Piece → Prop) (N : Numeral → Prop) : Nat → Phrase → Prop
  | literal {depth : Nat} (l : Json.Literal) : Fits S N depth (.literal l)
  | numeral {depth : Nat} {n : Numeral} : N n → Fits S N depth (.numeral n)
  | string {depth : Nat} {pieces : List Piece} : S pieces → Fits S N depth (.string pieces)
  | array {depth : Nat} {items : List Phrase} : (∀ t ∈ items, Fits S N depth t) →
      Fits S N (depth + 1) (.array items)
  | object {depth : Nat} {members : List (List Piece × Phrase)} : (∀ m ∈ members, S m.1) →
      (∀ m ∈ members, Fits S N depth m.2) → Fits S N (depth + 1) (.object members)

mutual
/-- The data that a phrase stands for. Of members with one key the last one counts. -/
def data : Phrase → Data
  | .literal l => l.data
  | .numeral n => .number (n.number?.getD (.int 0))
  | .string pieces => .text (.ofList (characters pieces))
  | .array items => .list (dataOfItems items)
  | .object members => .dict (Dict.ofList (dataOfMembers members))

def dataOfItems : List Phrase → List Data
  | [] => []
  | t :: items => t.data :: dataOfItems items

def dataOfMembers : List (List Piece × Phrase) → List (Key × Data)
  | [] => []
  | (key, t) :: members => (.text (.ofList (characters key)), t.data) :: dataOfMembers members
end

end Phrase

end JsonAssert.Grammar
