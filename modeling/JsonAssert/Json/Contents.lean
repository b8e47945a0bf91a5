import JsonAssert.Json.Failure

/-! The contents of a JSON string, from behind its opening quote up to the closing one. -/
namespace JsonAssert.Json

def hexDigit? (c : Char) : Option Nat :=
  if '0' ≤ c ∧ c ≤ '9' then some (c.toNat - 48)
  else if 'a' ≤ c ∧ c ≤ 'f' then some (c.toNat - 87)
  else if 'A' ≤ c ∧ c ≤ 'F' then some (c.toNat - 55)
  else none

/-- The number of four hexadecimal digits, and what follows them. -/
def hexNumber? : List Char → Option (Nat × List Char)
  | a :: b :: c :: d :: rest =>
    match hexDigit? a, hexDigit? b, hexDigit? c, hexDigit? d with
    | some a, some b, some c, some d => some (((a * 16 + b) * 16 + c) * 16 + d, rest)
    | _, _, _, _ => none
  | _ => none

def isHighSurrogate (n : Nat) : Bool := 0xD800 ≤ n && n ≤ 0xDBFF

def isLowSurrogate (n : Nat) : Bool := 0xDC00 ≤ n && n ≤ 0xDFFF

/-- The character of a pair of surrogates. -/
def joinSurrogates (high low : Nat) : Char :=
  Char.ofNat (0x10000 + (high - 0xD800) * 0x400 + (low - 0xDC00))

/-- The character that a letter stands for behind a backslash. -/
def unescape : Char → Option Char
  | '"' => some '"'
  | '\\' => some '\\'
  | '/' => some '/'
  | 'b' => some '\x08'
  | 'f' => some '\x0c'
  | 'n' => some '\n'
  | 'r' => some '\r'
  | 't' => some '\t'
  | _ => none

/-- The second half of a pair of surrogates, a whole escape. -/
def secondHalf (high : Nat) : List Char → Except Cause (Char × List Char)
  | '\\' :: 'u' :: digits =>
    match hexNumber? digits with
    | none => .error .invalidSecondEscape
    | some (n, rest) =>
      if isLowSurrogate n then .ok (joinSurrogates high n, rest) else .error .noLowSurrogate
  | _ => .error .highSurrogateAlone

/-- The character of an escape, from behind its backslash. -/
def escape : List Char → Except Cause (Char × List Char)
  | 'u' :: digits =>
    match hexNumber? digits with
    | none => .error .invalidEscape
    | some (n, rest) =>
      if isHighSurrogate n then secondHalf n rest
      else if isLowSurrogate n then .error .lowSurrogateFirst
      else .ok (Char.ofNat n, rest)
  | c :: rest =>
    match unescape c with
    | some d => .ok (d, rest)
    | none => .error .invalidEscape
  | [] => .error .invalidEscape

theorem length_of_hexNumber? {s rest : List Char} {n : Nat} (h : hexNumber? s = some (n, rest)) :
    s.length = rest.length + 4 := by
  unfold hexNumber? at h
  split at h
  · split at h <;> simp_all
  · simp at h

theorem length_of_secondHalf {high : Nat} {s rest : List Char} {c : Char}
    (h : secondHalf high s = .ok (c, rest)) : rest.length < s.length := by
  unfold secondHalf at h
  split at h
  · split at h
    · simp at h
    · next heq =>
      have hlength := length_of_hexNumber? heq
      split at h
      · obtain ⟨rfl, rfl⟩ : _ ∧ _ := by simpa using h
        simp only [List.length_cons]
        omega
      · simp at h
  · simp at h

theorem length_of_escape {s rest : List Char} {c : Char} (h : escape s = .ok (c, rest)) :
    rest.length < s.length := by
  unfold escape at h
  split at h
  · split at h
    · simp at h
    · next heq =>
      have hlength := length_of_hexNumber? heq
      simp only [List.length_cons]
      split at h
      · have hhalf := length_of_secondHalf h
        omega
      · split at h
        · simp at h
        · obtain ⟨rfl, rfl⟩ : _ ∧ _ := by simpa using h
          omega
  · split at h
    · obtain ⟨rfl, rfl⟩ : _ ∧ _ := by simpa using h
      simp only [List.length_cons]
      omega
    · simp at h
  · simp at h

/-- The characters up to the closing quote. A fault in an escape is placed at its first
backslash. -/
def contents : Reader (List Char)
  | [] => .error ⟨.controlCharacter, []⟩
  | '"' :: rest => .ok ([], rest)
  | '\\' :: s =>
    match _h : escape s with
    | .error cause => .error ⟨cause, '\\' :: s⟩
    | .ok (c, rest) =>
      match contents rest with
      | .error f => .error f
      | .ok (text, rest) => .ok (c :: text, rest)
  | c :: s =>
    if c.toNat < 0x20 then .error ⟨.controlCharacter, c :: s⟩
    else
      match contents s with
      | .error f => .error f
      | .ok (text, rest) => .ok (c :: text, rest)
termination_by s => s.length
decreasing_by
  · have hescape := length_of_escape _h
    simp only [List.length_cons]
    omega
  · simp only [List.length_cons]
    omega

@[simp] theorem contents_nil : contents [] = .error ⟨.controlCharacter, []⟩ := by
  rw [contents]

@[simp] theorem contents_quote (s : List Char) : contents ('"' :: s) = .ok ([], s) := by
  rw [contents]

theorem contents_backslash (s : List Char) :
    contents ('\\' :: s) =
      match escape s with
      | .error cause => .error ⟨cause, '\\' :: s⟩
      | .ok (c, rest) => (contents rest).map fun (text, rest) => (c :: text, rest) := by
  rw [contents]
  split
  · next h => rw [h]
  · next h =>
    rw [h]
    simp only
    split <;> next h' => rw [h']; rfl

theorem contents_plain {c : Char} (s : List Char) (hquote : c ≠ '"') (hbackslash : c ≠ '\\')
    (hprint : 0x20 ≤ c.toNat) :
    contents (c :: s) = (contents s).map fun (text, rest) => (c :: text, rest) := by
  rw [contents]
  · rw [if_neg (by omega)]
    split <;> next h => rw [h]; rfl
  · exact hquote
  · exact hbackslash

theorem contents_control {c : Char} (s : List Char) (hcontrol : c.toNat < 0x20) :
    contents (c :: s) = .error ⟨.controlCharacter, c :: s⟩ := by
  rw [contents]
  · rw [if_pos hcontrol]
  · rintro rfl
    simp at hcontrol
  · rintro rfl
    simp at hcontrol

end JsonAssert.Json
