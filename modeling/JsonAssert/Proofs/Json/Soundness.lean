import JsonAssert.Proofs.Json.Completeness

/-! The reader of values takes nothing but phrases of the grammar that fit into its depth, and gives
the data that they stand for. -/
namespace JsonAssert.Json
open Grammar

/-- Some item, read from the front of a text as a value, leaves the rest. -/
def IsFront {α β : Type} (IsItem : β → List Char → Prop) (Q : β → Prop) (f : β → α)
    (s : List Char) (y : α) (rest : List Char) : Prop :=
  ∃ x front, s = front ++ rest ∧ IsItem x front ∧ Q x ∧ f x = y

/-- Whatever the reader takes is such an item. -/
def TakesOnly {α β : Type} (read : Reader α) (IsItem : β → List Char → Prop) (Q : β → Prop)
    (f : β → α) : Prop :=
  ∀ {s y rest}, read s = .ok (y, rest) → IsFront IsItem Q f s y rest

variable {α β : Type} {closing : Closing} {item : Reader α} {IsItem : β → List Char → Prop}
  {Q : β → Prop} {f : β → α}

theorem blanks_before {c : Char} {s s' : List Char} (h : skipBlanks s = c :: s') :
    ∃ b, s = b ++ c :: s' ∧ IsBlank b := by
  obtain ⟨b, hs, hb⟩ := exists_blanks s
  exact ⟨b, by rw [← h]; exact hs, hb⟩

theorem isBlank_nil : IsBlank [] := by simp [IsBlank]

theorem separated_eq (hitem : TakesOnly item IsItem Q f) {rounds : ℕ} {s rest : List Char}
    {ys : List α} (h : separated closing item rounds s = .ok (ys, rest)) :
    ∃ xs front close, s = front ++ close ++ rest ∧ IsSeparated IsItem xs front ∧
      IsMark closing.mark close ∧ (∀ x ∈ xs, Q x) ∧ xs.map f = ys := by
  induction rounds generalizing s ys with
  | zero => simp [separated] at h
  | succ rounds ih =>
    unfold separated at h
    split at h
    · simp at h
    next y s₁ hy =>
    obtain ⟨x, front, rfl, hx, hQ, rfl⟩ := hitem hy
    split at h
    · simp at h
    next c s₂ hc =>
    obtain ⟨b, rfl, hb⟩ := blanks_before hc
    split_ifs at h with hmark hcomma htrailing
    · obtain ⟨rfl, rfl⟩ : _ ∧ _ := by simpa using h
      refine ⟨[x], front, b ++ [c], by simp, .one hx, ?_, by simpa using hQ, rfl⟩
      rw [← hmark]
      exact .mk hb isBlank_nil
    · split at h
      · simp at h
      next ys' s₃ hmore =>
      obtain ⟨rfl, rfl⟩ : _ ∧ _ := by simpa using h
      obtain ⟨xs, front', close, hs, hxs, hclose, hQs, rfl⟩ := ih hmore
      obtain ⟨b', hs₂, hb'⟩ := exists_blanks s₂
      refine ⟨x :: xs, front ++ (b ++ ',' :: b') ++ front', close, ?_,
        .more hx (.mk hb hb') hxs, hclose, ?_, rfl⟩
      · rw [hs₂, hs, hcomma]
        simp
      · simpa using ⟨hQ, hQs⟩

/-- The items of a container: none, or some with commas between them. -/
theorem items_eq (hitem : TakesOnly item IsItem Q f) {rounds : ℕ} {s rest : List Char}
    {ys : List α} (h : items closing item rounds s = .ok (ys, rest)) :
    (∃ close, s = close ++ rest ∧ IsMark closing.mark close ∧ ys = []) ∨
      ∃ before xs front close, s = before ++ front ++ close ++ rest ∧ IsBlank before ∧
        IsSeparated IsItem xs front ∧ IsMark closing.mark close ∧ (∀ x ∈ xs, Q x) ∧
        xs.map f = ys := by
  unfold items at h
  split_ifs at h with hempty
  · obtain ⟨rfl, rfl⟩ : _ ∧ _ := by simpa using h
    obtain ⟨s', hs'⟩ : ∃ s', skipBlanks s = closing.mark :: s' := by
      cases hskip : skipBlanks s with
      | nil => simp [hskip] at hempty
      | cons c s' => exact ⟨s', by simpa [hskip] using hempty⟩
    obtain ⟨b, rfl, hb⟩ := blanks_before hs'
    exact .inl ⟨b ++ [closing.mark], by simp [hs'], .mk hb isBlank_nil, rfl⟩
  · obtain ⟨xs, front, close, hs, hxs, hclose, hQ, hys⟩ := separated_eq hitem h
    obtain ⟨b, hb, hblank⟩ := exists_blanks s
    refine .inr ⟨b, xs, front, close, ?_, hblank, hxs, hclose, hQ, hys⟩
    rw [hb, hs]
    simp

theorem member_takesOnly {item : Reader Data} {IsItem : Phrase → List Char → Prop}
    {Q : Phrase → Prop} (hitem : TakesOnly item IsItem Q Phrase.data) :
    TakesOnly (member item) (IsMember IsItem) (fun m => IsPaired m.1 ∧ Q m.2) entry := by
  intro s y rest h
  unfold member at h
  split at h
  · next s =>
    split at h
    · simp at h
    next key s₁ hkey =>
    split at h
    · next s₂ hcolon =>
      split at h
      · simp at h
      next x s₃ hx =>
      obtain ⟨rfl, rfl⟩ : _ ∧ _ := by simpa using h
      obtain ⟨pieces, rfl, hallowed, hpaired, rfl⟩ := contents_eq hkey
      obtain ⟨b, rfl, hb⟩ := blanks_before hcolon
      obtain ⟨b', hs₂, hb'⟩ := exists_blanks s₂
      obtain ⟨t, front, hfront, ht, hQ, rfl⟩ := hitem hx
      refine ⟨(pieces, t), _, ?_, .mk (.mk hallowed) (.mk hb hb') ht, ⟨hpaired, hQ⟩, rfl⟩
      rw [hs₂, hfront]
      simp
    · simp at h
  · simp at h

theorem literal_eq {l : Literal} {s rest : List Char} {d : Data}
    (h : literal l s = .ok (d, rest)) : s = l.spelling ++ rest ∧ l.data = d := by
  unfold literal at h
  split_ifs at h with hspelling
  obtain ⟨rfl, rfl⟩ : _ ∧ _ := by simpa using h
  obtain ⟨t, rfl⟩ := List.isPrefixOf_iff_prefix.mp hspelling
  exact ⟨by simp, rfl⟩

theorem scalar_takesOnly (depth : ℕ) :
    TakesOnly scalar IsValue (Phrase.Fits IsPaired HasNumber depth) Phrase.data := by
  intro s d rest h
  have hliteral {l : Literal} {s : List Char} (h : literal l s = .ok (d, rest)) :
      IsFront IsValue (Phrase.Fits IsPaired HasNumber depth) Phrase.data s d rest := by
    obtain ⟨rfl, rfl⟩ := literal_eq h
    exact ⟨.literal l, l.spelling, rfl, .literal l, .literal l, rfl⟩
  unfold scalar at h
  split at h
  · split at h
    · simp at h
    next text s₁ htext =>
    obtain ⟨rfl, rfl⟩ : _ ∧ _ := by simpa using h
    obtain ⟨pieces, rfl, hallowed, hpaired, rfl⟩ := contents_eq htext
    exact ⟨.string pieces, _, by simp, .string (.mk hallowed), .string hpaired, rfl⟩
  · exact hliteral h
  · exact hliteral h
  · exact hliteral h
  · split_ifs at h
    split at h
    · simp at h
    next x s₁ hx =>
    obtain ⟨rfl, rfl⟩ : _ ∧ _ := by simpa using h
    obtain ⟨n, front, rfl, hn, hnumber⟩ := number_eq hx
    exact ⟨.numeral n, front, rfl, .numeral hn, .numeral ⟨x, hnumber⟩,
      by simp [Phrase.data, hnumber]⟩

theorem mark_cons {mark : Char} {b : List Char} (hb : IsBlank b) : IsMark mark (mark :: b) :=
  .mk isBlank_nil hb

theorem array_takesOnly {rounds depth : ℕ}
    (hitem : TakesOnly (value rounds depth) IsValue (Phrase.Fits IsPaired HasNumber depth)
      Phrase.data) {s rest : List Char} {d : Data}
    (h : array (value rounds depth) rounds s = .ok (d, rest)) :
    IsFront IsValue (Phrase.Fits IsPaired HasNumber (depth + 1)) Phrase.data ('[' :: s) d rest := by
  unfold array at h
  split at h
  · simp at h
  next ys s₁ hys =>
  obtain ⟨rfl, rfl⟩ : _ ∧ _ := by simpa using h
  rcases items_eq hitem hys with ⟨close, rfl, hclose, rfl⟩ |
    ⟨b, xs, front, close, rfl, hb, hxs, hclose, hfits, rfl⟩
  · exact ⟨.array [], '[' :: close, rfl, .emptyArray (mark_cons isBlank_nil) hclose,
      .array (by simp), rfl⟩
  · refine ⟨.array xs, ('[' :: b) ++ front ++ close, by simp,
      .array (mark_cons hb) hxs hclose, .array hfits, ?_⟩
    rw [Phrase.data, dataOfItems_eq_map]

theorem object_takesOnly {rounds depth : ℕ}
    (hitem : TakesOnly (value rounds depth) IsValue (Phrase.Fits IsPaired HasNumber depth)
      Phrase.data) {s rest : List Char} {d : Data}
    (h : object (value rounds depth) rounds s = .ok (d, rest)) :
    IsFront IsValue (Phrase.Fits IsPaired HasNumber (depth + 1)) Phrase.data ('\x7b' :: s) d
      rest := by
  unfold object at h
  split at h
  · simp at h
  next ys s₁ hys =>
  obtain ⟨rfl, rfl⟩ : _ ∧ _ := by simpa using h
  rcases items_eq (member_takesOnly hitem) hys with ⟨close, rfl, hclose, rfl⟩ |
    ⟨b, ms, front, close, rfl, hb, hms, hclose, hfits, rfl⟩
  · exact ⟨.object [], '\x7b' :: close, rfl, .emptyObject (mark_cons isBlank_nil) hclose,
      .object (by simp) (by simp), rfl⟩
  · refine ⟨.object ms, ('\x7b' :: b) ++ front ++ close, by simp,
      .object (mark_cons hb) hms hclose,
      .object (fun m hm => (hfits m hm).1) fun m hm => (hfits m hm).2, ?_⟩
    rw [Phrase.data, dataOfMembers_eq_map]

/-- Whatever the reader of values takes is a phrase that fits into its depth. -/
theorem value_takesOnly (rounds depth : ℕ) :
    TakesOnly (value rounds depth) IsValue (Phrase.Fits IsPaired HasNumber depth)
      Phrase.data := by
  induction depth with
  | zero =>
    intro s d rest h
    unfold value at h
    split at h <;> first | exact scalar_takesOnly 0 h | simp_all
  | succ depth ih =>
    intro s d rest h
    unfold value at h
    split at h
    · simp_all
    · simp_all
    · next heq =>
      obtain rfl : depth = _ := by simpa using heq
      exact array_takesOnly ih h
    · next heq =>
      obtain rfl : depth = _ := by simpa using heq
      exact object_takesOnly ih h
    · exact scalar_takesOnly (depth + 1) h

end JsonAssert.Json
