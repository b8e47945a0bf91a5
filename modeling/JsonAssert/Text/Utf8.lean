/-! Strict UTF-8: the bytes of a text, their reading, and what is wrong with bytes that are no
text. -/
namespace JsonAssert.Utf8

/-- An interval of bytes, both ends included. -/
structure Span where
  low : UInt8
  high : UInt8
  deriving DecidableEq, Repr

def Span.contains (s : Span) (b : UInt8) : Bool := s.low ≤ b && b ≤ s.high

def tail : Span := ⟨0x80, 0xBF⟩

/-- The bytes that have to follow a lead byte; `none` if no character starts with it. Four lead
bytes narrow the first of them, so that every character has one spelling. -/
def awaited (lead : UInt8) : Option (List Span) :=
  if lead < 0x80 then some []
  else if lead < 0xC2 then none
  else if lead < 0xE0 then some [tail]
  else if lead = 0xE0 then some [⟨0xA0, 0xBF⟩, tail]
  else if lead = 0xED then some [⟨0x80, 0x9F⟩, tail]
  else if lead < 0xF0 then some [tail, tail]
  else if lead = 0xF0 then some [⟨0x90, 0xBF⟩, tail, tail]
  else if lead < 0xF4 then some [tail, tail, tail]
  else if lead = 0xF4 then some [⟨0x80, 0x8F⟩, tail, tail]
  else none

inductive Reason where
  | startByte | endOfData | continuationByte
  deriving DecidableEq, Repr

def Reason.text : Reason → String
  | .startByte => "invalid start byte"
  | .endOfData => "unexpected end of data"
  | .continuationByte => "invalid continuation byte"

/-- The first bad sequence of some bytes: its first byte and where that is, how many bytes after it
were still acceptable, and what ended it. -/
structure Malformed where
  lead : UInt8
  position : Nat
  extra : Nat
  reason : Reason
  deriving DecidableEq, Repr

def Malformed.shift (offset : Nat) (m : Malformed) : Malformed :=
  { m with position := m.position + offset }

def Malformed.message (m : Malformed) : String :=
  let place :=
    if m.extra = 0 then
      s!"byte 0x{String.ofList (Nat.toDigits 16 m.lead.toNat)} in position {m.position}"
    else s!"bytes in position {m.position}-{m.position + m.extra}"
  s!"'utf-8' codec can't decode {place}: {m.reason.text}"

/-- Takes the awaited bytes off the front. A failure tells how many came, and why no more did. -/
def takeAwaited : List Span → List UInt8 → Except (Nat × Reason) (List UInt8 × List UInt8)
  | [], bytes => .ok ([], bytes)
  | _ :: _, [] => .error (0, .endOfData)
  | span :: spans, b :: bytes =>
    if span.contains b then
      match takeAwaited spans bytes with
      | .ok (taken, rest) => .ok (b :: taken, rest)
      | .error (count, reason) => .error (count + 1, reason)
    else .error (0, .continuationByte)

theorem takeAwaited_append {spans : List Span} {bytes taken rest : List UInt8}
    (h : takeAwaited spans bytes = .ok (taken, rest)) : bytes = taken ++ rest := by
  fun_induction takeAwaited spans bytes generalizing taken with
  | case1 => simp_all
  | case2 => simp at h
  | case3 _ _ _ _ _ _ _ heq ih =>
    obtain ⟨rfl, rfl⟩ : _ ∧ _ := by simpa using h
    simp [← ih heq]
  | case4 => simp at h
  | case5 => simp at h

/-- The bits that a lead byte gives its character. -/
def payload (lead : UInt8) : Nat :=
  if lead < 0x80 then lead.toNat
  else if lead < 0xE0 then lead.toNat % 32
  else if lead < 0xF0 then lead.toNat % 16
  else lead.toNat % 8

/-- The character of a lead byte and its tail, six bits from each byte of the tail. -/
def assemble (lead : UInt8) (taken : List UInt8) : Char :=
  Char.ofNat (taken.foldl (fun code b => code * 64 + b.toNat % 64) (payload lead))

/-- The characters of some bytes, or the first bad sequence. -/
def decode : List UInt8 → Except Malformed (List Char)
  | [] => .ok []
  | lead :: bytes =>
    match awaited lead with
    | none => .error ⟨lead, 0, 0, .startByte⟩
    | some spans =>
      match _h : takeAwaited spans bytes with
      | .error (count, reason) => .error ⟨lead, 0, count, reason⟩
      | .ok (taken, rest) =>
        match decode rest with
        | .ok text => .ok (assemble lead taken :: text)
        | .error m => .error (m.shift (taken.length + 1))
termination_by bytes => bytes.length
decreasing_by simp only [takeAwaited_append _h, List.length_cons, List.length_append]; omega

theorem decode_cons (lead : UInt8) (bytes : List UInt8) :
    decode (lead :: bytes) =
      match awaited lead with
      | none => .error ⟨lead, 0, 0, .startByte⟩
      | some spans =>
        match takeAwaited spans bytes with
        | .error (count, reason) => .error ⟨lead, 0, count, reason⟩
        | .ok (taken, rest) =>
          match decode rest with
          | .ok text => .ok (assemble lead taken :: text)
          | .error m => .error (m.shift (taken.length + 1)) := by
  rw [decode]
  split
  · rfl
  · split <;> next h => rw [h]

def encode (text : List Char) : List UInt8 := text.flatMap String.utf8EncodeChar

end JsonAssert.Utf8
