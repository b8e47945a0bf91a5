import JsonAssert.Proofs.Json.LineEnds

/-! Where a fault is: every reader leaves an end of its text, and so does one that fails, so the
part at fault is where its length says. -/
namespace JsonAssert.Json

/-- What a reader leaves, or what it finds at fault. -/
def left {α : Type} : Except Failure (α × List Char) → List Char
  | .ok (_, rest) => rest
  | .error f => f.rest

/-- Nothing is left that is not an end of the text. -/
def StaysInside {α : Type} (read : Reader α) : Prop := ∀ s, left (read s) <:+ s

section
variable {α : Type} {read : Reader α} {s : List Char}

theorem StaysInside.rest (h : StaysInside read) {x : α} {rest : List Char}
    (hs : read s = .ok (x, rest)) : rest <:+ s := by
  have hleft := h s
  rwa [hs] at hleft

theorem StaysInside.fault (h : StaysInside read) {f : Failure} (hs : read s = .error f) :
    f.rest <:+ s := by
  have hleft := h s
  rwa [hs] at hleft

theorem left_map {β : Type} (f : α → β) (r : Except Failure (α × List Char)) :
    left (r.map fun (x, rest) => (f x, rest)) = left r := by
  cases r <;> rfl

end

/-! Numerals -/

theorem digits_suffix (s : List Char) : (digits s).2 <:+ s := List.dropWhile_suffix _

theorem minus_suffix (s : List Char) : (minus s).2 <:+ s := by
  unfold minus
  split
  · exact List.suffix_cons _ _
  · exact List.suffix_rfl

theorem sign_suffix (s : List Char) : (sign s).2 <:+ s := by
  unfold sign
  split
  · exact List.suffix_cons _ _
  · exact List.suffix_cons _ _
  · exact List.suffix_rfl

theorem whole_staysInside : StaysInside whole := by
  intro s
  have hdigits := digits_suffix s
  unfold whole
  split
  · next h => rwa [h] at hdigits
  · exact List.suffix_rfl
  · exact hdigits

theorem fraction_staysInside : StaysInside fraction := by
  intro s
  unfold fraction
  split
  · next t =>
    have hdigits := (digits_suffix t).trans (List.suffix_cons '.' t)
    split <;> next h => rwa [h] at hdigits
  · exact List.suffix_rfl

theorem exponentDigits_staysInside : StaysInside exponentDigits := by
  intro s
  have hdigits := (digits_suffix (sign s).2).trans (sign_suffix s)
  unfold exponentDigits
  dsimp only
  split <;> next h => rwa [h] at hdigits

theorem exponent_staysInside : StaysInside exponent := by
  intro s
  unfold exponent
  split
  · exact (exponentDigits_staysInside _).trans (List.suffix_cons _ _)
  · exact (exponentDigits_staysInside _).trans (List.suffix_cons _ _)
  · exact List.suffix_rfl

theorem numeral_staysInside : StaysInside numeral := by
  intro s
  have hminus := minus_suffix s
  unfold numeral
  dsimp only
  split
  · next hwhole => exact (whole_staysInside.fault hwhole).trans hminus
  next hwhole =>
  have hwhole' := (whole_staysInside.rest hwhole).trans hminus
  split
  · next hfraction => exact (fraction_staysInside.fault hfraction).trans hwhole'
  next hfraction =>
  have hfraction' := (fraction_staysInside.rest hfraction).trans hwhole'
  split
  · next hexponent => exact (exponent_staysInside.fault hexponent).trans hfraction'
  · next hexponent => exact (exponent_staysInside.rest hexponent).trans hfraction'

theorem number_staysInside : StaysInside number := by
  intro s
  unfold number
  split
  · next h => exact numeral_staysInside.fault h
  next h =>
  split
  · exact numeral_staysInside.rest h
  · exact List.suffix_rfl

/-! Strings -/

theorem hexNumber?_suffix {s rest : List Char} {n : ℕ} (h : hexNumber? s = some (n, rest)) :
    rest <:+ s := by
  obtain ⟨a, b, c, d, rfl, -, -⟩ := hexNumber?_eq h
  exact List.suffix_append [a, b, c, d] rest

theorem secondHalf_suffix {high : ℕ} {s rest : List Char} {c : Char}
    (h : secondHalf high s = .ok (c, rest)) : rest <:+ s := by
  unfold secondHalf at h
  split at h
  · next digits =>
    split at h
    · simp at h
    next hhex =>
    have hdigits := (hexNumber?_suffix hhex).trans (List.suffix_append ['\\', 'u'] digits)
    split at h
    · obtain ⟨-, rfl⟩ : _ ∧ _ := by simpa using h
      exact hdigits
    · simp at h
  · simp at h

theorem escape_suffix {s rest : List Char} {c : Char} (h : escape s = .ok (c, rest)) :
    rest <:+ s := by
  unfold escape at h
  split at h
  · next digits =>
    split at h
    · simp at h
    next hhex =>
    have hdigits := (hexNumber?_suffix hhex).trans (List.suffix_cons 'u' digits)
    split at h
    · exact (secondHalf_suffix h).trans hdigits
    · split at h
      · simp at h
      · obtain ⟨-, rfl⟩ : _ ∧ _ := by simpa using h
        exact hdigits
  · split at h
    · obtain ⟨-, rfl⟩ : _ ∧ _ := by simpa using h
      exact List.suffix_cons _ _
    · simp at h
  · simp at h

theorem contents_staysInside : StaysInside contents := by
  intro s
  fun_induction contents s with
  | case1 => exact List.suffix_rfl
  | case2 rest => exact List.suffix_cons _ _
  | case3 s cause hescape => exact List.suffix_rfl
  | case4 s c rest hescape f hmore ih =>
    rw [hmore] at ih
    exact (ih.trans (escape_suffix hescape)).trans (List.suffix_cons _ _)
  | case5 s c rest hescape text rest' hmore ih =>
    rw [hmore] at ih
    exact (ih.trans (escape_suffix hescape)).trans (List.suffix_cons _ _)
  | case6 c s => exact List.suffix_rfl
  | case7 c s _ _ _ f hmore ih =>
    rw [hmore] at ih
    exact ih.trans (List.suffix_cons _ _)
  | case8 c s _ _ _ text rest hmore ih =>
    rw [hmore] at ih
    exact ih.trans (List.suffix_cons _ _)

/-! Values -/

theorem skipBlanks_suffix (s : List Char) : skipBlanks s <:+ s := List.dropWhile_suffix _

theorem literal_staysInside (l : Literal) : StaysInside (literal l) := by
  intro s
  unfold literal
  split_ifs
  · exact List.drop_suffix _ _
  · exact List.suffix_rfl

section
variable {α : Type} {closing : Closing} {item : Reader α}

theorem separated_staysInside (hitem : StaysInside item) (rounds : ℕ) :
    StaysInside (separated closing item rounds) := by
  induction rounds with
  | zero => exact fun s => List.suffix_rfl
  | succ rounds ih =>
    intro s
    unfold separated
    split
    · next h => exact hitem.fault h
    next h =>
    have hrest := (skipBlanks_suffix _).trans (hitem.rest h)
    split
    · exact List.nil_suffix
    next c t hskip =>
    rw [hskip] at hrest
    have hmore := (skipBlanks_suffix t).trans ((List.suffix_cons c t).trans hrest)
    split_ifs
    · exact (List.suffix_cons c t).trans hrest
    · exact hrest
    · split
      · next hfault => exact (ih.fault hfault).trans hmore
      · next hxs => exact (ih.rest hxs).trans hmore
    · exact hrest

theorem items_staysInside (hitem : StaysInside item) (rounds : ℕ) :
    StaysInside (items closing item rounds) := by
  intro s
  unfold items
  split_ifs
  · exact (List.tail_suffix _).trans (skipBlanks_suffix s)
  · exact (separated_staysInside hitem rounds _).trans (skipBlanks_suffix s)

end

section
variable {item : Reader Data}

theorem memberValue_staysInside (hitem : StaysInside item) (key : List Char) :
    StaysInside (memberValue item key) := by
  intro s
  unfold memberValue
  split
  · next t =>
    rw [left_map]
    exact (hitem _).trans ((skipBlanks_suffix t).trans (List.suffix_cons ':' t))
  · exact List.suffix_rfl

theorem member_staysInside (hitem : StaysInside item) : StaysInside (member item) := by
  intro s
  by_cases h : ∃ t, s = '"' :: t
  · obtain ⟨t, rfl⟩ := h
    have ht := List.suffix_cons '"' t
    rw [member_quote]
    split
    · next hkey => exact (contents_staysInside.fault hkey).trans ht
    · next rest hkey =>
      have hrest := (contents_staysInside.rest hkey).trans ht
      exact (memberValue_staysInside hitem _ _).trans ((skipBlanks_suffix rest).trans hrest)
  · rw [member_of_other item h]
    exact List.suffix_rfl

theorem array_staysInside (hitem : StaysInside item) (rounds : ℕ) :
    StaysInside (array item rounds) := by
  intro s
  rw [array_eq_map, left_map]
  exact items_staysInside hitem rounds s

theorem object_staysInside (hitem : StaysInside item) (rounds : ℕ) :
    StaysInside (object item rounds) := by
  intro s
  rw [object_eq_map, left_map fun entries => Data.dict (Dict.ofList entries)]
  exact items_staysInside (member_staysInside hitem) rounds s

end

theorem scalar_staysInside : StaysInside scalar := by
  intro s
  unfold scalar
  split
  · next t =>
    have ht := List.suffix_cons '"' t
    split
    · next h => exact (contents_staysInside.fault h).trans ht
    · next h => exact (contents_staysInside.rest h).trans ht
  · exact literal_staysInside _ _
  · exact literal_staysInside _ _
  · exact literal_staysInside _ _
  · split_ifs
    · split
      · next h => exact number_staysInside.fault h
      · next h => exact number_staysInside.rest h
    · exact List.suffix_rfl

theorem value_staysInside (rounds depth : ℕ) : StaysInside (value rounds depth) := by
  induction depth with
  | zero =>
    intro s
    by_cases hbracket : ∃ t, s = '[' :: t
    · obtain ⟨t, rfl⟩ := hbracket
      exact List.suffix_cons '[' t
    by_cases hbrace : ∃ t, s = '\x7b' :: t
    · obtain ⟨t, rfl⟩ := hbrace
      exact List.suffix_cons '\x7b' t
    rw [value_of_other hbracket hbrace]
    exact scalar_staysInside s
  | succ depth ih =>
    intro s
    by_cases hbracket : ∃ t, s = '[' :: t
    · obtain ⟨t, rfl⟩ := hbracket
      exact (array_staysInside ih rounds t).trans (List.suffix_cons '[' t)
    by_cases hbrace : ∃ t, s = '\x7b' :: t
    · obtain ⟨t, rfl⟩ := hbrace
      exact (object_staysInside ih rounds t).trans (List.suffix_cons '\x7b' t)
    rw [value_of_other hbracket hbrace]
    exact scalar_staysInside s

/-- The fault of a text is in the text. -/
theorem rest_suffix_of_document {s : List Char} {f : Failure} (h : document s = .error f) :
    f.rest <:+ s := by
  unfold document at h
  split at h
  · next hvalue =>
    cases h
    exact ((value_staysInside _ _).fault hvalue).trans (skipBlanks_suffix s)
  next d rest hvalue =>
  have hrest := ((value_staysInside _ _).rest hvalue).trans (skipBlanks_suffix s)
  split at h
  · cases h
  · next hextra =>
    cases h
    exact (skipBlanks_suffix rest).trans hrest

end JsonAssert.Json
