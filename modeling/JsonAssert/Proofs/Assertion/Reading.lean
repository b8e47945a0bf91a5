import JsonAssert.Proofs.Assertion.Statement
import JsonAssert.Proofs.Json.NumeralWriting
import JsonAssert.Proofs.Json.StringWriting

/-! The text of an assertion is read as the statement that it was written for. -/
namespace JsonAssert.Script
open Grammar

/-! Strings -/

theorem contents_quote (s : List Char) : contents ('"' :: s) = some ([], s) := by
  rw [contents]

theorem contents_backslash {s cs rest : List Char} (h : escape s = some (cs, rest)) :
    contents ('\\' :: s) = (contents rest).map fun (text, rest) => (cs ++ text, rest) := by
  rw [contents]
  split
  · next hnone => simp [h] at hnone
  · next heq =>
    obtain ⟨rfl, rfl⟩ : _ ∧ _ := by simpa [h] using heq
    rfl

theorem contents_plain {c : Char} (s : List Char) (hquote : c ≠ '"') (hbackslash : c ≠ '\\')
    (hforbidden : isForbidden c = false) :
    contents (c :: s) = (contents s).map fun (text, rest) => (c :: text, rest) := by
  rw [contents]
  · rw [hforbidden]
    rfl
  · exact hquote
  · exact hbackslash

theorem isForbidden_of_le {c : Char} (h : 0x20 ≤ c.toNat) : isForbidden c = false := by
  have hne {d : Char} (hd : d.toNat < 0x20) : (c == d) = false := by
    rw [beq_eq_false_iff_ne]
    rintro rfl
    omega
  simp [isForbidden, hne]

/-- The letters of the two languages have one meaning where the generator uses them. -/
theorem escape_letter {c l : Char} (h : Quoted.letter c = some l) (s : List Char) :
    escape (l :: s) = some ([c], s) := by
  unfold Quoted.letter at h
  split at h <;> simp_all <;> subst h <;> rfl

theorem hexDigit?_digitChar {n : ℕ} (hn : n < 16) : Json.hexDigit? n.digitChar = some n :=
  (Json.hexDigit?_eq_some_iff _ _).mpr
    ⟨Quoted.isHexDigit_digitChar hn, (Quoted.hexValue_digitChar hn).symm⟩

theorem escape_code {c : Char} (hc : c.toNat < 0x20) (s : List Char) :
    escape ('u' :: '0' :: '0' :: (c.toNat / 16).digitChar :: (c.toNat % 16).digitChar :: s) =
      some ([c], s) := by
  have hzero : Json.hexDigit? '0' = some 0 := rfl
  have hhigh := hexDigit?_digitChar (n := c.toNat / 16) (by omega)
  have hlow := hexDigit?_digitChar (n := c.toNat % 16) (by omega)
  have hvalue : c.toNat / 16 * 16 + c.toNat % 16 = c.toNat := by omega
  have hchar : char? c.toNat = some c := by
    have hvalid : c.toNat.isValidChar := c.valid
    rw [char?, if_pos hvalid, Char.ofNat_toNat]
  have hlength : ¬ ('0' :: '0' :: (c.toNat / 16).digitChar :: (c.toNat % 16).digitChar ::
      s).length < 4 := by
    simp
  rw [escape, hex?, if_neg hlength]
  simp [hzero, hhigh, hlow, hvalue, hchar]

theorem contents_escape (c : Char) (s : List Char) :
    contents (Quoted.escape c ++ s) = (contents s).map fun (text, rest) => (c :: text, rest) := by
  unfold Quoted.escape
  split
  · next l hl => exact contents_backslash (escape_letter hl s)
  · next hnone =>
    split_ifs with hcontrol
    · exact contents_backslash (escape_code hcontrol s)
    · obtain ⟨hquote, hbackslash⟩ := Quoted.ne_of_letter_eq_none hnone
      exact contents_plain s hquote hbackslash (isForbidden_of_le (by omega))

/-- A quoted text is read as this text. -/
theorem contents_append (text rest : List Char) :
    contents (text.flatMap Quoted.escape ++ '"' :: rest) = some (text, rest) := by
  induction text with
  | nil => exact contents_quote rest
  | cons c text ih =>
    rw [List.flatMap_cons, List.append_assoc, contents_escape, ih]
    rfl

theorem encode_append (text rest : List Char) :
    Quoted.encode text ++ rest = '"' :: (text.flatMap Quoted.escape ++ '"' :: rest) := by
  simp [Quoted.encode]

/-! Names -/

theorem name?_append {name : String} (hname : IsName name) {rest : List Char}
    (hrest : ∀ c, rest.head? = some c → isNamePart c = false) :
    name? (name.toList ++ rest) = some (name, rest) := by
  obtain ⟨htake, hdrop⟩ := Json.span_append (List.all_eq_true.mp hname.2.1) hrest
  rw [name?, htake, hdrop, String.ofList_toList]
  exact if_pos hname

/-! Subscripts -/

/-- A key under which JSON data has children. -/
def IsStep : Key → Prop
  | .text _ => True
  | .int n => 0 ≤ n
  | .bool _ => False

theorem toList_subscript_text (s : String) :
    (Key.text s).subscript.toList = '[' :: (Quoted.encode s.toList ++ [']']) := by
  simp [Key.subscript, quoted]

theorem toList_subscript_nat (n : ℕ) :
    (Key.int n).subscript.toList = '[' :: (Nat.toDigits 10 n ++ [']']) := by
  have htext : (toString (n : ℤ)).toList = Nat.toDigits 10 n := Nat.toList_repr
  rw [Key.subscript, String.toList_append, String.toList_append, htext]
  rfl

theorem subscript?_of_digit {c : Char} (hc : c ≠ '"') (s : List Char) :
    subscript? (c :: s) =
      match Json.whole (c :: s) with
      | .ok (digits, ']' :: rest) => some (.int (Numeral.natural digits), rest)
      | _ => none := by
  unfold subscript?
  split
  · simp_all
  · rfl

theorem subscript_append {k : Key} (hk : IsStep k) (rest : List Char) :
    ∃ s, k.subscript.toList ++ rest = '[' :: s ∧ subscript? s = some (k, rest) := by
  cases k with
  | text s =>
    refine ⟨Quoted.encode s.toList ++ ']' :: rest, by simp [toList_subscript_text], ?_⟩
    rw [encode_append, subscript?, contents_append]
    simp
  | int n =>
    obtain ⟨m, rfl⟩ := Int.eq_ofNat_of_zero_le hk
    refine ⟨Nat.toDigits 10 m ++ ']' :: rest, by simp [toList_subscript_nat], ?_⟩
    have hbracket : ∀ c, (']' :: rest).head? = some c → ¬ IsDigit c := by
      rintro c hc
      obtain rfl : ']' = c := by simpa using hc
      decide
    have hwhole := Json.whole_append (Binary64.isWhole_toDigits m) hbracket
    obtain ⟨c, ds, hds⟩ := List.exists_cons_of_ne_nil (Nat.toDigits_ne_nil (n := m) (b := 10))
    have hc : c ≠ '"' := by
      rintro rfl
      have hdigit := Binary64.isDigit_of_mem_toDigits (n := m) '"' (by simp [hds])
      exact absurd hdigit (by decide)
    rw [hds, List.cons_append] at hwhole ⊢
    rw [subscript?_of_digit hc, hwhole]
    simp [← hds, Numeral.natural_toDigits]
  | bool b => exact absurd hk id

theorem subscripts_append {path : List Key} (hpath : ∀ k ∈ path, IsStep k) {rest : List Char}
    (hrest : rest.head? ≠ some '[') {rounds : ℕ} (hrounds : path.length ≤ rounds) :
    subscripts rounds (path.flatMap (fun k => k.subscript.toList) ++ rest) = some (path, rest) := by
  induction path generalizing rounds with
  | nil =>
    rw [List.flatMap_nil, List.nil_append]
    unfold subscripts
    split
    · simp at hrest
    · rfl
  | cons k path ih =>
    obtain ⟨rounds, rfl⟩ : ∃ r, rounds = r + 1 := ⟨rounds - 1, by simp at hrounds; omega⟩
    have hmore := ih (fun l hl => hpath l (List.mem_cons_of_mem k hl))
      (by simpa using hrounds : path.length ≤ rounds)
    obtain ⟨s, hs, hread⟩ := subscript_append (hpath k List.mem_cons_self)
      (path.flatMap (fun k => k.subscript.toList) ++ rest)
    rw [List.flatMap_cons, List.append_assoc, hs, subscripts, hread]
    simp [hmore]

theorem length_le_subscripts {path : List Key} (hpath : ∀ k ∈ path, IsStep k) :
    path.length ≤ (path.flatMap fun k => k.subscript.toList).length := by
  induction path with
  | nil => exact Nat.zero_le _
  | cons k path ih =>
    obtain ⟨s, hs, -⟩ := subscript_append (hpath k List.mem_cons_self) []
    have hone : 1 ≤ k.subscript.toList.length := by
      rw [← List.append_nil k.subscript.toList, hs]
      exact Nat.le_add_left 1 _
    have hmore := ih fun l hl => hpath l (List.mem_cons_of_mem k hl)
    rw [List.flatMap_cons, List.length_append, List.length_cons]
    omega

/-- Subscripts start with a bracket, if there are any. -/
theorem head_subscripts {path : List Key} (hpath : ∀ k ∈ path, IsStep k) (rest : List Char) :
    ((path.flatMap fun k => k.subscript.toList) ++ rest).head? = some '[' ∨
      (path.flatMap fun k => k.subscript.toList) ++ rest = rest := by
  cases path with
  | nil => exact .inr rfl
  | cons k path =>
    obtain ⟨s, hs, -⟩ := subscript_append (hpath k List.mem_cons_self)
      ((path.flatMap fun k => k.subscript.toList) ++ rest)
    left
    rw [List.flatMap_cons, List.append_assoc, hs]
    rfl

theorem toList_foldl_subscripted (path : List Key) (root : String) :
    (path.foldl subscripted root).toList =
      root.toList ++ path.flatMap fun k => k.subscript.toList := by
  induction path generalizing root with
  | nil => simp
  | cons k path ih =>
    rw [List.foldl_cons, ih, subscripted, String.toList_append, List.flatMap_cons,
      List.append_assoc]

/-! Literals -/

theorem literal?_numeral {n : Numeral} {s : List Char} (h : IsNumeral n s) :
    literal? s = some (.number (number n)) := by
  have hnil : Json.Stops [] := by simp [Json.Stops]
  have hread := Json.numeral_append h hnil
  rw [List.append_nil] at hread
  obtain ⟨c, t, rfl, hc⟩ := Json.head_of_isNumeral h
  unfold literal?
  split
  · next heq =>
    obtain ⟨rfl, -⟩ : _ ∧ _ := by simpa using heq
    exact absurd hc (by decide)
  · rw [hread]

/-- A literal of well-formed data. -/
def IsFiniteLeaf : Leaf → Prop
  | .number n => n.IsFinite
  | _ => True

/-- The text of a number is a numeral, and this numeral is read as the number. -/
theorem exists_numeral {x : Number} (hx : x.IsFinite) :
    ∃ n, IsNumeral n x.text.toList ∧ number n = x := by
  cases x with
  | int i =>
    obtain ⟨n, hn, ⟨hfraction, hexponent⟩, hnegative, hwhole⟩ := exists_numeral_of_int i
    refine ⟨n, hn, ?_⟩
    simp only [number, hfraction, hexponent, hnegative, hwhole, decide_eq_true_eq,
      Number.int.injEq]
    split_ifs <;> omega
  | float x =>
    cases x with
    | finite negative significand scale h =>
      obtain ⟨n, hn, hinteger, hfloat, -⟩ := Binary64.exists_numeral negative h
      refine ⟨n, hn, ?_⟩
      unfold number
      split
      · next hfraction hexponent => exact absurd ⟨hfraction, hexponent⟩ hinteger
      · rw [hfloat]
    | infinite negative => simp [Number.IsFinite, Number.units?, Binary64.units?] at hx
    | nan => simp [Number.IsFinite, Number.units?, Binary64.units?] at hx

theorem literal?_literal {l : Leaf} (hl : IsFiniteLeaf l) : literal? l.literal.toList = some l := by
  cases l with
  | number x =>
    obtain ⟨n, hn, hx⟩ := exists_numeral hl
    rw [Leaf.literal, literal?_numeral hn, hx]
  | text s =>
    have hencode := encode_append s.toList []
    rw [List.append_nil] at hencode
    rw [Leaf.literal, quoted, String.toList_ofList, hencode, literal?, contents_append]
    simp
  | bool b => cases b <;> rfl
  | _ => rfl

/-! Statements -/

def relationOf : Leaf → Relation
  | .null => .identity
  | .bool _ => .identity
  | _ => .equality

theorem toList_relation (l : Leaf) :
    " ".toList ++ l.relation.toList ++ " ".toList = (relationOf l).spelling := by
  have hidentity : " ".toList ++ "is".toList ++ " ".toList = Relation.identity.spelling := rfl
  have hequality : " ".toList ++ "==".toList ++ " ".toList = Relation.equality.spelling := rfl
  cases l with
  | null => exact hidentity
  | bool b => exact hidentity
  | _ => exact hequality

theorem relation?_append (r : Relation) (rest : List Char) :
    relation? (r.spelling ++ rest) = some (r, rest) := by
  cases r with
  | identity =>
    rw [relation?, List.dropPrefix?_append_of_beq rest (beq_self_eq_true _)]
  | equality =>
    have hnone : (Relation.equality.spelling ++ rest).dropPrefix? Relation.identity.spelling =
        none := rfl
    rw [relation?, hnone, List.dropPrefix?_append_of_beq rest (beq_self_eq_true _)]
    rfl

/-- What stands behind the root in an assertion: subscripts, relation and literal. -/
def body (path : List Key) (l : Leaf) : List Char :=
  path.flatMap (fun k => k.subscript.toList) ++ ((relationOf l).spelling ++ l.literal.toList)

theorem toList_assertion (l : Leaf) (path : List Key) (root : String) :
    (l.assertion (path.foldl subscripted root)).toList =
      "assert ".toList ++ (root.toList ++ body path l) := by
  rw [body, ← toList_relation, Leaf.assertion]
  simp only [String.toList_append, toList_foldl_subscripted, List.append_assoc]

theorem exists_blank_spelling (r : Relation) : ∃ s, r.spelling = ' ' :: s := by
  cases r <;> exact ⟨_, rfl⟩

theorem subscripts_body {path : List Key} (hpath : ∀ k ∈ path, IsStep k) (l : Leaf) {rounds : ℕ}
    (hrounds : path.length ≤ rounds) :
    subscripts rounds (body path l) = some (path, (relationOf l).spelling ++ l.literal.toList) := by
  obtain ⟨s, hs⟩ := exists_blank_spelling (relationOf l)
  exact subscripts_append hpath (by simp [hs]) hrounds

theorem length_le_body {path : List Key} (hpath : ∀ k ∈ path, IsStep k) (l : Leaf) :
    path.length ≤ (body path l).length := by
  rw [body, List.length_append]
  exact (length_le_subscripts hpath).trans (Nat.le_add_right _ _)

/-- No name goes on where a body starts. -/
theorem name?_body {root : String} (hroot : IsName root) {path : List Key}
    (hpath : ∀ k ∈ path, IsStep k) (l : Leaf) :
    name? (root.toList ++ body path l) = some (root, body path l) := by
  obtain ⟨s, hs⟩ := exists_blank_spelling (relationOf l)
  apply name?_append hroot
  intro c hc
  rcases head_subscripts hpath ((relationOf l).spelling ++ l.literal.toList) with h | h
  · obtain rfl : '[' = c := Option.some.inj (h.symm.trans hc)
    decide
  · rw [body, h, hs] at hc
    obtain rfl : ' ' = c := by simpa using hc
    decide

/-- The line of an assertion is read as one statement, with the root, the path and the literal that
it was written for. -/
theorem statement?_assertion {root : String} (hroot : IsName root) {path : List Key}
    (hpath : ∀ k ∈ path, IsStep k) {l : Leaf} (hl : IsFiniteLeaf l) :
    statement? (l.assertion (path.foldl subscripted root)).toList =
      some ⟨root, path, relationOf l, l⟩ := by
  have hsubscripts := subscripts_body hpath l (length_le_body hpath l)
  rw [toList_assertion, statement?, List.dropPrefix?_append_of_beq _ (beq_self_eq_true _)]
  simp only [bind, Option.bind_some, name?_body hroot hpath, hsubscripts, relation?_append,
    literal?_literal hl]
  rfl

end JsonAssert.Script
