import Mathlib
import JsonAssert.Text.Utf8

/-! UTF-8 decoding and encoding are inverse to each other: bytes are read as a text exactly when they
are its encoding. -/
namespace JsonAssert.Utf8

theorem contains_iff (s : Span) (b : UInt8) :
    s.contains b = true ↔ s.low.toNat ≤ b.toNat ∧ b.toNat ≤ s.high.toNat := by
  simp [Span.contains, UInt8.le_iff_toNat_le]

/-- The bytes lie in the spans, one by one. -/
def Fill (spans : List Span) (taken : List UInt8) : Prop :=
  List.Forall₂ (fun s b => s.contains b = true) spans taken

theorem takeAwaited_eq_ok_iff {spans : List Span} {bytes taken rest : List UInt8} :
    takeAwaited spans bytes = .ok (taken, rest) ↔ Fill spans taken ∧ bytes = taken ++ rest := by
  constructor
  · intro h
    refine ⟨?_, takeAwaited_append h⟩
    fun_induction takeAwaited spans bytes generalizing taken with
    | case1 =>
      obtain ⟨rfl, -⟩ : _ ∧ _ := by simpa using h
      exact .nil
    | case2 => simp at h
    | case3 span spans b bytes hb taken' rest' heq ih =>
      obtain ⟨rfl, rfl⟩ : _ ∧ _ := by simpa using h
      exact .cons hb (ih heq)
    | case4 => simp at h
    | case5 => simp at h
  · rintro ⟨hfill, rfl⟩
    induction hfill with
    | nil => rfl
    | cons hb _ ih => simp [takeAwaited, hb, ih]

theorem decode_append {lead : UInt8} {taken : List UInt8}
    (h : ∃ spans, awaited lead = some spans ∧ Fill spans taken) (rest : List UInt8) :
    decode (lead :: taken ++ rest) =
      match decode rest with
      | .ok text => .ok (assemble lead taken :: text)
      | .error m => .error (m.shift (taken.length + 1)) := by
  obtain ⟨spans, hawaited, hfill⟩ := h
  have htake : takeAwaited spans (taken ++ rest) = .ok (taken, rest) :=
    takeAwaited_eq_ok_iff.mpr ⟨hfill, rfl⟩
  rw [List.cons_append, decode_cons, hawaited]
  cases hrest : decode rest with
  | ok text => simp only [htake, hrest]
  | error m => simp only [htake, hrest]

theorem decode_eq {bytes : List UInt8} {c : Char} {text : List Char}
    (h : decode bytes = .ok (c :: text)) :
    ∃ lead taken rest, bytes = lead :: taken ++ rest ∧
      (∃ spans, awaited lead = some spans ∧ Fill spans taken) ∧ assemble lead taken = c ∧
      decode rest = .ok text := by
  cases bytes with
  | nil => simp [decode] at h
  | cons lead bytes =>
    rw [decode_cons] at h
    split at h
    · simp at h
    next spans hawaited =>
    split at h
    · simp at h
    next taken rest htaken =>
    split at h
    · next text' hrest =>
      obtain ⟨rfl, rfl⟩ : _ ∧ _ := by simpa using h
      obtain ⟨hfill, rfl⟩ := takeAwaited_eq_ok_iff.mp htaken
      exact ⟨lead, taken, rest, rfl, ⟨spans, hawaited, hfill⟩, rfl, hrest⟩
    · simp at h

/-! One character -/

def IsTail (b : UInt8) : Prop := 0x80 ≤ b.toNat ∧ b.toNat ≤ 0xBF

/-- The bytes of one character by their number, with the bounds that make them the shortest ones for
a code that is no surrogate and not too large. -/
inductive IsSequence : UInt8 → List UInt8 → Prop
  | one {a : UInt8} : a.toNat < 0x80 → IsSequence a []
  | two {a b : UInt8} : 0xC2 ≤ a.toNat → a.toNat < 0xE0 → IsTail b → IsSequence a [b]
  | three {a b c : UInt8} : 0xE0 ≤ a.toNat → a.toNat < 0xF0 → IsTail b → IsTail c →
      (a.toNat = 0xE0 → 0xA0 ≤ b.toNat) → (a.toNat = 0xED → b.toNat ≤ 0x9F) → IsSequence a [b, c]
  | four {a b c d : UInt8} : 0xF0 ≤ a.toNat → a.toNat ≤ 0xF4 → IsTail b → IsTail c → IsTail d →
      (a.toNat = 0xF0 → 0x90 ≤ b.toNat) → (a.toNat = 0xF4 → b.toNat ≤ 0x8F) →
      IsSequence a [b, c, d]

theorem fill_cons {s : Span} {spans : List Span} {taken : List UInt8} :
    Fill (s :: spans) taken ↔ ∃ b more, taken = b :: more ∧
      (s.low.toNat ≤ b.toNat ∧ b.toNat ≤ s.high.toNat) ∧ Fill spans more := by
  simp only [Fill, List.forall₂_cons_left_iff, contains_iff]
  grind

theorem fill_nil {taken : List UInt8} : Fill [] taken ↔ taken = [] := List.forall₂_nil_left_iff

theorem awaited_of_isSequence {lead : UInt8} {taken : List UInt8} (h : IsSequence lead taken) :
    ∃ spans, awaited lead = some spans ∧ Fill spans taken := by
  unfold awaited
  simp only [UInt8.lt_iff_toNat_lt, ← UInt8.toNat_inj, UInt8.reduceToNat]
  cases h with
  | one ha => exact ⟨[], by rw [if_pos ha], .nil⟩
  | two hlow hhigh hb =>
    refine ⟨[tail], ?_, .cons ((contains_iff _ _).mpr hb) .nil⟩
    rw [if_neg (by omega), if_neg (by omega), if_pos hhigh]
  | three hlow hhigh hb hc hfirst hlast =>
    unfold IsTail at hb hc
    split_ifs <;>
      first
      | omega
      | refine ⟨_, rfl, ?_⟩
        simp only [fill_cons, fill_nil, tail, UInt8.reduceToNat]
        exact ⟨_, _, rfl, by omega, _, _, rfl, by omega, rfl⟩
  | four hlow hhigh hb hc hd hfirst hlast =>
    unfold IsTail at hb hc hd
    split_ifs <;>
      first
      | omega
      | refine ⟨_, rfl, ?_⟩
        simp only [fill_cons, fill_nil, tail, UInt8.reduceToNat]
        exact ⟨_, _, rfl, by omega, _, _, rfl, by omega, _, _, rfl, by omega, rfl⟩

theorem isSequence_of_awaited {lead : UInt8} {taken : List UInt8} {spans : List Span}
    (hspans : awaited lead = some spans) (hfill : Fill spans taken) : IsSequence lead taken := by
  unfold awaited at hspans
  simp only [UInt8.lt_iff_toNat_lt, ← UInt8.toNat_inj, UInt8.reduceToNat] at hspans
  split_ifs at hspans
  · obtain rfl : [] = spans := by simpa using hspans
    obtain rfl := fill_nil.mp hfill
    exact .one ‹_›
  all_goals
    obtain rfl := Option.some.inj hspans
    simp only [fill_cons, fill_nil, tail, UInt8.reduceToNat] at hfill
  · obtain ⟨b, _, rfl, hb, rfl⟩ := hfill
    exact .two (by omega) (by omega) hb
  · obtain ⟨b, _, rfl, hb, c, _, rfl, hc, rfl⟩ := hfill
    exact .three (by omega) (by omega) ⟨by omega, by omega⟩ hc (by omega) (by omega)
  · obtain ⟨b, _, rfl, hb, c, _, rfl, hc, rfl⟩ := hfill
    exact .three (by omega) (by omega) ⟨by omega, by omega⟩ hc (by omega) (by omega)
  · obtain ⟨b, _, rfl, hb, c, _, rfl, hc, rfl⟩ := hfill
    exact .three (by omega) (by omega) ⟨by omega, by omega⟩ hc (by omega) (by omega)
  · obtain ⟨b, _, rfl, hb, c, _, rfl, hc, d, _, rfl, hd, rfl⟩ := hfill
    exact .four (by omega) (by omega) ⟨by omega, by omega⟩ hc hd (by omega) (by omega)
  · obtain ⟨b, _, rfl, hb, c, _, rfl, hc, d, _, rfl, hd, rfl⟩ := hfill
    exact .four (by omega) (by omega) ⟨by omega, by omega⟩ hc hd (by omega) (by omega)
  · obtain ⟨b, _, rfl, hb, c, _, rfl, hc, d, _, rfl, hd, rfl⟩ := hfill
    exact .four (by omega) (by omega) ⟨by omega, by omega⟩ hc hd (by omega) (by omega)

/-- The bytes of the character with a number. -/
def spelling (n : ℕ) : List UInt8 :=
  if n ≤ 0x7F then [.ofNat n]
  else if n ≤ 0x7FF then [.ofNat (n / 64 % 32 + 0xC0), .ofNat (n % 64 + 0x80)]
  else if n ≤ 0xFFFF then
    [.ofNat (n / 4096 % 16 + 0xE0), .ofNat (n / 64 % 64 + 0x80), .ofNat (n % 64 + 0x80)]
  else
    [.ofNat (n / 262144 % 8 + 0xF0), .ofNat (n / 4096 % 64 + 0x80),
      .ofNat (n / 64 % 64 + 0x80), .ofNat (n % 64 + 0x80)]

theorem utf8EncodeChar_eq (c : Char) : String.utf8EncodeChar c = spelling c.toNat := rfl

theorem utf8EncodeChar_ofNat {n : ℕ} (h : n.isValidChar) :
    String.utf8EncodeChar (Char.ofNat n) = spelling n := by
  rw [utf8EncodeChar_eq, Char.toNat_ofNat, if_pos h]

theorem ofNat_eq {n : ℕ} {b : UInt8} (h : n = b.toNat) : UInt8.ofNat n = b := by
  rw [h, UInt8.ofNat_toNat]

/-! The bits that a lead byte holds -/

theorem payload_one {a : UInt8} (h : a.toNat < 0x80) : payload a = a.toNat := by
  simp only [payload, UInt8.lt_iff_toNat_lt, UInt8.reduceToNat]
  rw [if_pos h]

theorem payload_two {a : UInt8} (hlow : 0x80 ≤ a.toNat) (hhigh : a.toNat < 0xE0) :
    payload a = a.toNat % 32 := by
  simp only [payload, UInt8.lt_iff_toNat_lt, UInt8.reduceToNat]
  rw [if_neg (by omega), if_pos hhigh]

theorem payload_three {a : UInt8} (hlow : 0xE0 ≤ a.toNat) (hhigh : a.toNat < 0xF0) :
    payload a = a.toNat % 16 := by
  simp only [payload, UInt8.lt_iff_toNat_lt, UInt8.reduceToNat]
  rw [if_neg (by omega), if_neg (by omega), if_pos hhigh]

theorem payload_four {a : UInt8} (hlow : 0xF0 ≤ a.toNat) : payload a = a.toNat % 8 := by
  simp only [payload, UInt8.lt_iff_toNat_lt, UInt8.reduceToNat]
  rw [if_neg (by omega), if_neg (by omega), if_neg (by omega)]

/-- What a sequence is assembled to is encoded as the sequence. -/
theorem encode_assemble {lead : UInt8} {taken : List UInt8} (h : IsSequence lead taken) :
    String.utf8EncodeChar (assemble lead taken) = lead :: taken := by
  unfold assemble
  cases h with
  | one ha =>
    rw [payload_one ha, List.foldl_nil, utf8EncodeChar_ofNat (.inl (by omega)), spelling,
      if_pos (by omega), ofNat_eq rfl]
  | @two b hlow hhigh hb =>
    unfold IsTail at hb
    rw [payload_two (by omega) hhigh]
    simp only [List.foldl_cons, List.foldl_nil]
    rw [utf8EncodeChar_ofNat (.inl (by omega)), spelling, if_neg (by omega), if_pos (by omega),
      ofNat_eq (b := lead) (by omega), ofNat_eq (b := b) (by omega)]
  | @three b c hlow hhigh hb hc hfirst hlast =>
    unfold IsTail at hb hc
    rw [payload_three hlow hhigh]
    simp only [List.foldl_cons, List.foldl_nil]
    rw [utf8EncodeChar_ofNat (by unfold Nat.isValidChar; omega), spelling, if_neg (by omega),
      if_neg (by omega), if_pos (by omega), ofNat_eq (b := lead) (by omega),
      ofNat_eq (b := b) (by omega), ofNat_eq (b := c) (by omega)]
  | @four b c d hlow hhigh hb hc hd hfirst hlast =>
    unfold IsTail at hb hc hd
    rw [payload_four hlow]
    simp only [List.foldl_cons, List.foldl_nil]
    rw [utf8EncodeChar_ofNat (by unfold Nat.isValidChar; omega), spelling, if_neg (by omega),
      if_neg (by omega), if_neg (by omega), ofNat_eq (b := lead) (by omega),
      ofNat_eq (b := b) (by omega), ofNat_eq (b := c) (by omega), ofNat_eq (b := d) (by omega)]

theorem toNat_ofNat {n : ℕ} (h : n < 256) : (UInt8.ofNat n).toNat = n := by
  rw [UInt8.toNat_ofNat', Nat.mod_eq_of_lt h]

theorem assemble_eq {lead : UInt8} {taken : List UInt8} {c : Char}
    (h : taken.foldl (fun code b => code * 64 + b.toNat % 64) (payload lead) = c.toNat) :
    assemble lead taken = c := by
  rw [assemble, h, Char.ofNat_toNat]

/-- Every character is encoded as a sequence that is assembled to it. -/
theorem exists_sequence (c : Char) : ∃ lead taken, String.utf8EncodeChar c = lead :: taken ∧
    IsSequence lead taken ∧ assemble lead taken = c := by
  have hvalid : c.toNat < 0xD800 ∨ 0xDFFF < c.toNat ∧ c.toNat < 0x110000 := c.valid
  rw [utf8EncodeChar_eq]
  set n := c.toNat
  unfold spelling
  split_ifs with h1 h2 h3
  · have ha := toNat_ofNat (n := n) (by omega)
    refine ⟨_, _, rfl, .one (by omega), assemble_eq ?_⟩
    rw [payload_one (by omega), ha, List.foldl_nil]
  · have ha := toNat_ofNat (n := n / 64 % 32 + 0xC0) (by omega)
    have hb := toNat_ofNat (n := n % 64 + 0x80) (by omega)
    refine ⟨_, _, rfl, .two (by omega) (by omega) ⟨by omega, by omega⟩, assemble_eq ?_⟩
    rw [payload_two (by omega) (by omega)]
    simp only [ha, hb, List.foldl_cons, List.foldl_nil]
    omega
  · have ha := toNat_ofNat (n := n / 4096 % 16 + 0xE0) (by omega)
    have hb := toNat_ofNat (n := n / 64 % 64 + 0x80) (by omega)
    have hc := toNat_ofNat (n := n % 64 + 0x80) (by omega)
    refine ⟨_, _, rfl, .three (by omega) (by omega) ⟨by omega, by omega⟩ ⟨by omega, by omega⟩
      (by omega) (by omega), assemble_eq ?_⟩
    rw [payload_three (by omega) (by omega)]
    simp only [ha, hb, hc, List.foldl_cons, List.foldl_nil]
    omega
  · have ha := toNat_ofNat (n := n / 262144 % 8 + 0xF0) (by omega)
    have hb := toNat_ofNat (n := n / 4096 % 64 + 0x80) (by omega)
    have hc := toNat_ofNat (n := n / 64 % 64 + 0x80) (by omega)
    have hd := toNat_ofNat (n := n % 64 + 0x80) (by omega)
    refine ⟨_, _, rfl, .four (by omega) (by omega) ⟨by omega, by omega⟩ ⟨by omega, by omega⟩
      ⟨by omega, by omega⟩ (by omega) (by omega), assemble_eq ?_⟩
    rw [payload_four (by omega)]
    simp only [ha, hb, hc, hd, List.foldl_cons, List.foldl_nil]
    omega

/-! Texts -/

theorem decode_encode (text : List Char) : decode (encode text) = .ok text := by
  induction text with
  | nil => simp [encode, decode]
  | cons c text ih =>
    obtain ⟨lead, taken, hencode, hsequence, rfl⟩ := exists_sequence c
    have hspans := awaited_of_isSequence hsequence
    rw [encode, List.flatMap_cons, hencode, decode_append hspans, ← encode, ih]

/-- Bytes are read as a text exactly when they are its encoding. -/
theorem decode_eq_ok_iff {bytes : List UInt8} {text : List Char} :
    decode bytes = .ok text ↔ bytes = encode text := by
  constructor
  · intro h
    induction text generalizing bytes with
    | nil =>
      cases bytes with
      | nil => rfl
      | cons lead bytes =>
        rw [decode_cons] at h
        split at h
        · simp at h
        split at h
        · simp at h
        split at h <;> simp at h
    | cons c text ih =>
      obtain ⟨lead, taken, rest, rfl, ⟨spans, hspans, hfill⟩, rfl, hrest⟩ := decode_eq h
      have hsequence := isSequence_of_awaited hspans hfill
      rw [encode, List.flatMap_cons, encode_assemble hsequence, ← encode, ← ih hrest]
  · rintro rfl
    exact decode_encode text

end JsonAssert.Utf8
