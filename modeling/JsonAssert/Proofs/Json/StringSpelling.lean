import JsonAssert.Proofs.Json.StringReading

/-! The spellings of the characters of a string, as the standard lists them, without regard to how they
are read; and the faults that a string may have. -/
namespace JsonAssert.Grammar
open Json

/-! Spellings -/

/-- Four hexadecimal digits of either case, and the number that they name. -/
inductive IsCode : ℕ → List Char → Prop
  | mk {a b c d : Char} : IsHexDigit a → IsHexDigit b → IsHexDigit c → IsHexDigit d →
      IsCode (((hexValue a * 16 + hexValue b) * 16 + hexValue c) * 16 + hexValue d) [a, b, c, d]

/-- The letters that stand for a character behind a backslash, with their characters. -/
def shortEscapes : List (Char × Char) :=
  [('"', '"'), ('\\', '\\'), ('/', '/'), ('b', '\x08'), ('f', '\x0c'), ('n', '\n'), ('r', '\r'),
    ('t', '\t')]

def IsHigh (n : ℕ) : Prop := 0xD800 ≤ n ∧ n ≤ 0xDBFF

def IsLow (n : ℕ) : Prop := 0xDC00 ≤ n ∧ n ≤ 0xDFFF

/-- The ways to spell one character. -/
inductive SpellsChar : Char → List Char → Prop
  | raw {c : Char} : 0x20 ≤ c.toNat → c ≠ '"' → c ≠ '\\' → SpellsChar c [c]
  | short {e c : Char} : (e, c) ∈ shortEscapes → SpellsChar c ['\\', e]
  | code {c : Char} {digits : List Char} : IsCode c.toNat digits →
      SpellsChar c ('\\' :: 'u' :: digits)
  | pair {c : Char} {high low : ℕ} {first second : List Char} : IsHigh high → IsLow low →
      c.toNat = 0x10000 + (high - 0xD800) * 0x400 + (low - 0xDC00) → IsCode high first →
      IsCode low second → SpellsChar c ('\\' :: 'u' :: first ++ '\\' :: 'u' :: second)

/-- The characters are spelled one after the other, each in any way. -/
inductive SpellsText : List Char → List Char → Prop
  | nil : SpellsText [] []
  | cons {c : Char} {s w v : List Char} : SpellsChar c w → SpellsText s v →
      SpellsText (c :: s) (w ++ v)

theorem isHigh_iff (n : ℕ) : IsHigh n ↔ isHighSurrogate n = true := by
  simp [IsHigh, isHighSurrogate]

theorem isLow_iff (n : ℕ) : IsLow n ↔ isLowSurrogate n = true := by
  simp [IsLow, isLowSurrogate]

theorem unescape_eq_some_iff (e c : Char) : unescape e = some c ↔ (e, c) ∈ shortEscapes := by
  unfold unescape
  split <;> simp_all [shortEscapes, eq_comm]

theorem exists_piece_of_isCode {n : ℕ} {digits : List Char} (h : IsCode n digits) :
    ∃ p : Piece, p.IsAllowed ∧ p.spelling = '\\' :: 'u' :: digits ∧ p.unit = n := by
  obtain ⟨ha, hb, hc, hd⟩ := h
  exact ⟨.code _ _ _ _, ⟨ha, hb, hc, hd⟩, rfl, rfl⟩

theorem exists_isOne {c : Char} {w : List Char} (h : SpellsChar c w) :
    ∃ ps, IsOne ps c ∧ ps.flatMap Piece.spelling = w := by
  cases h with
  | raw hprint hquote hbackslash =>
    have hallowed : (Piece.raw c).IsAllowed := ⟨hprint, hquote, hbackslash⟩
    have hone := isOne_single hallowed (not_surrogate c).1 (not_surrogate c).2
    rw [Piece.unit, Char.ofNat_toNat] at hone
    exact ⟨_, hone, rfl⟩
  | @short e _ he => exact ⟨_, isOne_letter ((unescape_eq_some_iff e c).mpr he), rfl⟩
  | code hdigits =>
    obtain ⟨p, hallowed, hspelling, hunit⟩ := exists_piece_of_isCode hdigits
    have hone := isOne_single hallowed (hunit ▸ (not_surrogate c).1) (hunit ▸ (not_surrogate c).2)
    rw [hunit, Char.ofNat_toNat] at hone
    exact ⟨_, hone, by simpa using hspelling⟩
  | pair hhigh hlow hc hfirst hsecond =>
    obtain ⟨p, hp, hfront, rfl⟩ := exists_piece_of_isCode hfirst
    obtain ⟨q, hq, hback, rfl⟩ := exists_piece_of_isCode hsecond
    have hone := isOne_pair hp hq ((isHigh_iff _).mp hhigh) ((isLow_iff _).mp hlow)
    rw [joinSurrogates, ← hc, Char.ofNat_toNat] at hone
    exact ⟨_, hone, by simp [hfront, hback]⟩

/-- A spelled text is made of pieces that stand for its characters. -/
theorem exists_pieces {s w : List Char} (h : SpellsText s w) :
    ∃ ps, ps.flatMap Piece.spelling = w ∧ (∀ p ∈ ps, p.IsAllowed) ∧ IsPaired ps ∧
      characters ps = s := by
  induction h with
  | nil => exact ⟨[], rfl, by simp, .nil, rfl⟩
  | cons hc _ ih =>
    obtain ⟨ps, hone, rfl⟩ := exists_isOne hc
    obtain ⟨qs, rfl, hallowed, hpaired, rfl⟩ := ih
    refine ⟨ps ++ qs, List.flatMap_append, ?_, hone.paired hpaired, hone.characters qs⟩
    exact List.forall_mem_append.mpr ⟨hone.allowed, hallowed⟩

theorem isCode_unit {a b c d : Char} (h : (Piece.code a b c d).IsAllowed) :
    IsCode (Piece.code a b c d).unit [a, b, c, d] :=
  .mk h.1 h.2.1 h.2.2.1 h.2.2.2

theorem hexValue_lt {c : Char} (h : IsHexDigit c) : hexValue c < 16 := by
  unfold IsHexDigit at h
  unfold hexValue
  simp only [char_le_iff, Char.reduceToNat] at h ⊢
  split_ifs <;> omega

theorem lt_of_isCode {n : ℕ} {digits : List Char} (h : IsCode n digits) : n < 0x10000 := by
  obtain ⟨ha, hb, hc, hd⟩ := h
  have := hexValue_lt ha
  have := hexValue_lt hb
  have := hexValue_lt hc
  have := hexValue_lt hd
  omega

theorem toNat_ofNat_of_valid {n : ℕ} (h : n < 0xD800 ∨ 0xDFFF < n ∧ n < 0x110000) :
    (Char.ofNat n).toNat = n := by
  have hvalid : n.isValidChar := h
  rw [Char.toNat_ofNat, if_pos hvalid]

theorem spellsChar_single {p : Piece} (h : p.IsAllowed) (hhigh : isHighSurrogate p.unit = false)
    (hlow : isLowSurrogate p.unit = false) : SpellsChar (Char.ofNat p.unit) p.spelling := by
  cases p with
  | raw c =>
    rw [Piece.unit, Char.ofNat_toNat]
    exact .raw h.1 h.2.1 h.2.2
  | letter e =>
    obtain ⟨c, hc⟩ := unescape_isSome h
    rw [Piece.unit, hc, Option.getD_some, Char.ofNat_toNat]
    exact .short ((unescape_eq_some_iff e c).mp hc)
  | code a b c d =>
    have hcode := isCode_unit h
    have hlt := lt_of_isCode hcode
    apply SpellsChar.code
    rw [toNat_ofNat_of_valid]
    · exact hcode
    · rw [← Bool.not_eq_true, ← isHigh_iff, IsHigh] at hhigh
      rw [← Bool.not_eq_true, ← isLow_iff, IsLow] at hlow
      omega

theorem spellsChar_pair {p q : Piece} (hp : p.IsAllowed) (hq : q.IsAllowed)
    (hhigh : isHighSurrogate p.unit = true) (hlow : isLowSurrogate q.unit = true) :
    SpellsChar (joinSurrogates p.unit q.unit) (p.spelling ++ q.spelling) := by
  obtain ⟨a, b, c, d, rfl⟩ := code_of_surrogate (.inl hhigh)
  obtain ⟨a', b', c', d', rfl⟩ := code_of_surrogate (.inr hlow)
  have hH := (isHigh_iff _).mpr hhigh
  have hL := (isLow_iff _).mpr hlow
  refine .pair hH hL ?_ (isCode_unit hp) (isCode_unit hq)
  unfold IsHigh at hH
  unfold IsLow at hL
  exact toNat_ofNat_of_valid (by omega)

/-- Pieces with paired surrogates spell their characters. -/
theorem spellsText_pieces {ps : List Piece} (h : IsPaired ps) (hallowed : ∀ p ∈ ps, p.IsAllowed) :
    SpellsText (characters ps) (ps.flatMap Piece.spelling) := by
  induction h with
  | nil => exact .nil
  | single hhigh hlow _ ih =>
    obtain ⟨hp, hmore⟩ := List.forall_mem_cons.mp hallowed
    rw [characters_single hhigh, List.flatMap_cons]
    exact .cons (spellsChar_single hp hhigh hlow) (ih hmore)
  | pair hhigh hlow _ ih =>
    obtain ⟨hp, hq, hmore⟩ : _ ∧ _ ∧ _ := by simpa only [List.forall_mem_cons] using hallowed
    rw [characters_pair hhigh, List.flatMap_cons, List.flatMap_cons, ← List.append_assoc]
    exact .cons (spellsChar_pair hp hq hhigh hlow) (ih hmore)

/-! Faults -/

/-- What no string goes on with: a control character, an escape that is unknown or cut off, or half of
a pair of surrogates. -/
inductive IsFault : List Char → Prop
  | control {c : Char} {rest : List Char} : c.toNat < 0x20 → IsFault (c :: rest)
  | escape {rest : List Char} : rest.head? ≠ some 'u' →
      (∀ e ∈ rest.head?, ∀ c, (e, c) ∉ shortEscapes) → IsFault ('\\' :: rest)
  | code {rest : List Char} : (∀ n digits, IsCode n digits → ¬ digits <+: rest) →
      IsFault ('\\' :: 'u' :: rest)
  | low {n : ℕ} {digits rest : List Char} : IsCode n digits → IsLow n →
      IsFault ('\\' :: 'u' :: digits ++ rest)
  | high {n : ℕ} {digits rest : List Char} : IsCode n digits → IsHigh n →
      (∀ m second, IsCode m second → IsLow m → ¬ '\\' :: 'u' :: second <+: rest) →
      IsFault ('\\' :: 'u' :: digits ++ rest)

theorem hexNumber?_of_isCode {n : ℕ} {digits : List Char} (h : IsCode n digits) (rest : List Char) :
    hexNumber? (digits ++ rest) = some (n, rest) := by
  obtain ⟨ha, hb, hc, hd⟩ := h
  exact hexNumber?_code (a := _) ⟨ha, hb, hc, hd⟩ rest

theorem hexNumber?_eq_none {rest : List Char}
    (h : ∀ n digits, IsCode n digits → ¬ digits <+: rest) : hexNumber? rest = none := by
  by_contra hsome
  obtain ⟨⟨n, more⟩, hread⟩ := Option.ne_none_iff_exists'.mp hsome
  obtain ⟨a, b, c, d, rfl, hallowed, rfl⟩ := hexNumber?_eq hread
  exact h _ _ (isCode_unit hallowed) ⟨more, rfl⟩

/-- The second half has to be the escape of a low surrogate. -/
theorem secondHalf_eq_error (high : ℕ) {rest : List Char}
    (h : ∀ m second, IsCode m second → IsLow m → ¬ '\\' :: 'u' :: second <+: rest) :
    ∃ cause, secondHalf high rest = .error cause := by
  cases hread : secondHalf high rest with
  | error cause => exact ⟨cause, rfl⟩
  | ok read =>
    obtain ⟨q, hallowed, hlow, rfl, -⟩ := secondHalf_eq hread
    obtain ⟨a, b, c, d, rfl⟩ := code_of_surrogate (.inr hlow)
    exact absurd ⟨read.2, rfl⟩ (h _ _ (isCode_unit hallowed) ((isLow_iff _).mpr hlow))

theorem contents_of_escape {s : List Char} (h : ∃ cause, escape s = .error cause) :
    ∃ f, contents ('\\' :: s) = .error f := by
  obtain ⟨cause, hcause⟩ := h
  exact ⟨_, by rw [contents_backslash, hcause]⟩

theorem contents_of_isFault {s : List Char} (h : IsFault s) : ∃ f, contents s = .error f := by
  cases h with
  | control hc => exact ⟨_, contents_control _ hc⟩
  | @escape rest hu hletter =>
    apply contents_of_escape
    cases rest with
    | nil => exact ⟨_, rfl⟩
    | cons e rest =>
      have hnone : unescape e = none := by
        by_contra hsome
        obtain ⟨c, hc⟩ := Option.ne_none_iff_exists'.mp hsome
        exact hletter e rfl c ((unescape_eq_some_iff e c).mp hc)
      refine ⟨.invalidEscape, ?_⟩
      unfold Json.escape
      split
      · next heq =>
        obtain ⟨rfl, -⟩ := List.cons.inj heq
        exact absurd rfl hu
      · next heq =>
        obtain ⟨rfl, rfl⟩ := List.cons.inj heq
        rw [hnone]
      · rfl
  | code hcode => exact contents_of_escape ⟨_, by rw [escape, hexNumber?_eq_none hcode]⟩
  | @low n digits rest hcode hlow =>
    have hhigh : isHighSurrogate n = false := by
      rw [← Bool.not_eq_true, ← isHigh_iff]
      unfold IsHigh IsLow at *
      omega
    refine contents_of_escape ⟨.lowSurrogateFirst, ?_⟩
    simp [Json.escape, hexNumber?_of_isCode hcode, hhigh, (isLow_iff n).mp hlow]
  | @high n digits rest hcode hhigh hsecond =>
    obtain ⟨cause, hcause⟩ := secondHalf_eq_error n hsecond
    refine contents_of_escape ⟨cause, ?_⟩
    simp [Json.escape, hexNumber?_of_isCode hcode, (isHigh_iff n).mp hhigh, hcause]

/-- Behind any spelled characters a fault is not what a string goes on with. -/
theorem not_spellsText_of_isFault {s w fault : List Char} (h : SpellsText s w)
    (hfault : IsFault fault) {s' w' rest : List Char} (h' : SpellsText s' w') :
    w ++ fault ≠ w' ++ '"' :: rest := by
  obtain ⟨ps, rfl, hallowed, hpaired, -⟩ := exists_pieces h
  obtain ⟨qs, rfl, hallowed', hpaired', -⟩ := exists_pieces h'
  obtain ⟨f, hf⟩ := contents_of_isFault hfault
  intro heq
  have hread := contents_append hpaired' hallowed' rest
  rw [← heq, contents_pieces hpaired hallowed, hf] at hread
  cases hread

end JsonAssert.Grammar
