import JsonAssert.Proofs.Json.Denotation

/-! One value of a text and what surrounds it. A frame is a phrase with a gap for a value; in the text,
what stands before and after the value is spelled without regard to the value. -/
namespace JsonAssert.Grammar
open Json

/-! Items around an item -/

section Around

variable {α : Type} {IsItem : α → List Char → Prop}

/-- Items with a comma behind each of them. -/
inductive IsLeading (IsItem : α → List Char → Prop) : List α → List Char → Prop
  | nil : IsLeading IsItem [] []
  | cons {x : α} {xs : List α} {s comma t : List Char} : IsItem x s → IsMark ',' comma →
      IsLeading IsItem xs t → IsLeading IsItem (x :: xs) (s ++ comma ++ t)

/-- Items with a comma before each of them. -/
inductive IsTrailing (IsItem : α → List Char → Prop) : List α → List Char → Prop
  | nil : IsTrailing IsItem [] []
  | cons {x : α} {xs : List α} {comma s t : List Char} : IsMark ',' comma → IsItem x s →
      IsTrailing IsItem xs t → IsTrailing IsItem (x :: xs) (comma ++ s ++ t)

theorem IsTrailing.separated {x : α} {after : List α} {s right : List Char}
    (h : IsTrailing IsItem after right) (hx : IsItem x s) :
    IsSeparated IsItem (x :: after) (s ++ right) := by
  induction h generalizing x s with
  | nil =>
    rw [List.append_nil]
    exact .one hx
  | cons hcomma hy _ ih =>
    have hmore := IsSeparated.more hx hcomma (ih hy)
    simpa only [List.append_assoc] using hmore

theorem IsLeading.separated {x : α} {before after : List α} {left s right : List Char}
    (h : IsLeading IsItem before left) (hx : IsItem x s) (hafter : IsTrailing IsItem after right) :
    IsSeparated IsItem (before ++ x :: after) (left ++ (s ++ right)) := by
  induction h with
  | nil => exact hafter.separated hx
  | cons hy hcomma _ ih =>
    have hmore := IsSeparated.more hy hcomma ih
    simpa only [List.append_assoc, List.cons_append] using hmore

theorem IsSeparated.exists_trailing {x : α} {after : List α} {text : List Char}
    (h : IsSeparated IsItem (x :: after) text) :
    ∃ s right, text = s ++ right ∧ IsItem x s ∧ IsTrailing IsItem after right := by
  induction after generalizing x text with
  | nil =>
    cases h with
    | one hx => exact ⟨text, [], (List.append_nil text).symm, hx, .nil⟩
    | more _ _ hnone => cases hnone
  | cons y after ih =>
    cases h with
    | more hx hcomma hmore =>
      obtain ⟨s, right, rfl, hy, hafter⟩ := ih hmore
      exact ⟨_, _, List.append_assoc _ _ _, hx, by
        simpa only [List.append_assoc] using IsTrailing.cons hcomma hy hafter⟩

theorem IsSeparated.exists_around {x : α} {before after : List α} {text : List Char}
    (h : IsSeparated IsItem (before ++ x :: after) text) :
    ∃ left s right, text = left ++ (s ++ right) ∧ IsLeading IsItem before left ∧ IsItem x s ∧
      IsTrailing IsItem after right := by
  induction before generalizing text with
  | nil =>
    obtain ⟨s, right, rfl, hx, hafter⟩ := h.exists_trailing
    exact ⟨[], s, right, rfl, .nil, hx, hafter⟩
  | cons y before ih =>
    rw [List.cons_append] at h
    generalize hitems : before ++ x :: after = items at h
    cases h with
    | one _ => simp at hitems
    | more hy hcomma hmore =>
      subst hitems
      obtain ⟨left, s, right, rfl, hbefore, hx, hafter⟩ := ih hmore
      exact ⟨_, s, right, (List.append_assoc _ _ _).symm, .cons hy hcomma hbefore, hx, hafter⟩

theorem forall_mem_around {P : α → Prop} {before after : List α} {x : α} :
    (∀ y ∈ before ++ x :: after, P y) ↔ (∀ y ∈ before, P y) ∧ P x ∧ ∀ y ∈ after, P y := by
  rw [List.forall_mem_append, List.forall_mem_cons]

end Around

/-! Frames -/

/-- A phrase with a gap in the place of a value. -/
inductive Frame where
  | gap
  | element (before : List Phrase) (inner : Frame) (after : List Phrase)
  | member (before : List (List Piece × Phrase)) (key : List Piece) (inner : Frame)
      (after : List (List Piece × Phrase))

namespace Frame

def fill : Frame → Phrase → Phrase
  | gap, t => t
  | element before inner after, t => .array (before ++ inner.fill t :: after)
  | member before key inner after, t => .object (before ++ (key, inner.fill t) :: after)

/-- The data of a filled frame, from the data in the gap. -/
def data : Frame → Data → Data
  | gap, d => d
  | element before inner after, d =>
    .list (before.map Phrase.data ++ inner.data d :: after.map Phrase.data)
  | member before key inner after, d =>
    .dict (Dict.ofList (before.map entry ++ (keyOf key, inner.data d) :: after.map entry))

theorem data_fill (f : Frame) (t : Phrase) : (f.fill t).data = f.data t.data := by
  induction f with
  | gap => rfl
  | element before inner after ih =>
    rw [fill, Phrase.data, dataOfItems_eq_map, List.map_append, List.map_cons, ih, data]
  | member before key inner after ih =>
    rw [fill, Phrase.data, dataOfMembers_eq_map, List.map_append, List.map_cons, data]
    simp only [entry, keyOf, ih]

/-- What fills the gap may change as long as it stays within the limits. -/
theorem fits_fill {S : List Piece → Prop} {N : Numeral → Prop} {f : Frame} {t t' : Phrase}
    {depth : ℕ} (h : (f.fill t).Fits S N depth)
    (ht : ∀ depth, t.Fits S N depth → t'.Fits S N depth) : (f.fill t').Fits S N depth := by
  induction f generalizing depth with
  | gap => exact ht depth h
  | element before inner after ih =>
    cases h with
    | array hitems =>
      obtain ⟨hbefore, hinner, hafter⟩ := forall_mem_around.mp hitems
      exact .array (forall_mem_around.mpr ⟨hbefore, ih hinner, hafter⟩)
  | member before key inner after ih =>
    cases h with
    | object hkeys hvalues =>
      obtain ⟨hbefore, hinner, hafter⟩ := forall_mem_around.mp hvalues
      obtain ⟨hkeysBefore, hkey, hkeysAfter⟩ := forall_mem_around.mp hkeys
      exact .object (forall_mem_around.mpr ⟨hkeysBefore, hkey, hkeysAfter⟩)
        (forall_mem_around.mpr ⟨hbefore, ih hinner, hafter⟩)

/-- The gap is no deeper than the limits allow for what fills it. -/
theorem fits_of_fits_fill {S : List Piece → Prop} {N : Numeral → Prop} {f : Frame} {t : Phrase}
    {depth : ℕ} (h : (f.fill t).Fits S N depth) : ∃ depth, t.Fits S N depth := by
  induction f generalizing depth with
  | gap => exact ⟨depth, h⟩
  | element before inner after ih =>
    cases h with
    | array hitems => exact ih (forall_mem_around.mp hitems).2.1
  | member before key inner after ih =>
    cases h with
    | object _ hvalues => exact ih (forall_mem_around.mp hvalues).2.1

end Frame

/-! The text around the gap -/

/-- What stands before and after the gap of a frame. -/
inductive Encloses : Frame → List Char → List Char → Prop
  | gap : Encloses .gap [] []
  | element {before after : List Phrase} {inner : Frame} {start s left right t close : List Char} :
      IsMark '[' start → IsLeading IsValue before s → Encloses inner left right →
      IsTrailing IsValue after t → IsMark ']' close →
      Encloses (.element before inner after) (start ++ s ++ left) (right ++ t ++ close)
  | member {before after : List (List Piece × Phrase)} {key : List Piece} {inner : Frame}
      {start s k colon left right t close : List Char} :
      IsMark '\x7b' start → IsLeading (IsMember IsValue) before s → IsString key k →
      IsMark ':' colon → Encloses inner left right → IsTrailing (IsMember IsValue) after t →
      IsMark '\x7d' close →
      Encloses (.member before key inner after) (start ++ s ++ k ++ colon ++ left)
        (right ++ t ++ close)

theorem Encloses.isValue {f : Frame} {t : Phrase} {left s right : List Char}
    (h : Encloses f left right) (ht : IsValue t s) : IsValue (f.fill t) (left ++ s ++ right) := by
  induction h with
  | gap =>
    rw [List.nil_append, List.append_nil]
    exact ht
  | element hstart hbefore _ hafter hclose ih =>
    have hitems := IsValue.array hstart (hbefore.separated ih hafter) hclose
    simpa only [List.append_assoc, Frame.fill] using hitems
  | member hstart hbefore hkey hcolon _ hafter hclose ih =>
    have hmember := IsMember.mk hkey hcolon ih
    have hmembers := IsValue.object hstart (hbefore.separated hmember hafter) hclose
    simpa only [List.append_assoc, Frame.fill] using hmembers

theorem IsContainer.exists_around {α : Type} {IsItem : α → List Char → Prop} {opening closing : Char}
    {x : α} {before after : List α} {text : List Char}
    (h : IsContainer IsItem opening closing (before ++ x :: after) text) :
    ∃ start left s right close, text = start ++ left ++ s ++ right ++ close ∧
      IsMark opening start ∧ IsLeading IsItem before left ∧ IsItem x s ∧
      IsTrailing IsItem after right ∧ IsMark closing close := by
  obtain ⟨start, body, close, rfl, hstart, hclose, ⟨hnone, -⟩ | hitems⟩ := h
  · simp at hnone
  · obtain ⟨left, s, right, rfl, hbefore, hx, hafter⟩ := hitems.exists_around
    exact ⟨start, left, s, right, close, by simp only [List.append_assoc], hstart, hbefore, hx,
      hafter, hclose⟩

/-- The text of a filled frame is made of the text in the gap and of what stands around it. -/
theorem exists_encloses {f : Frame} {t : Phrase} {text : List Char} (h : IsValue (f.fill t) text) :
    ∃ left s right, text = left ++ s ++ right ∧ Encloses f left right ∧ IsValue t s := by
  induction f generalizing text with
  | gap => exact ⟨[], text, [], by rw [List.nil_append, List.append_nil], .gap, h⟩
  | element before inner after ih =>
    obtain ⟨start, left, _, right, close, rfl, hstart, hbefore, hx, hafter, hclose⟩ :=
      (isContainer_of_array h).exists_around
    obtain ⟨left', s, right', rfl, hinner, ht⟩ := ih hx
    exact ⟨_, s, _, by simp only [List.append_assoc],
      .element hstart hbefore hinner hafter hclose, ht⟩
  | member before key inner after ih =>
    obtain ⟨start, left, _, right, close, rfl, hstart, hbefore, hx, hafter, hclose⟩ :=
      (isContainer_of_object h).exists_around
    obtain ⟨hkey, hcolon, hvalue⟩ := hx
    obtain ⟨left', s, right', rfl, hinner, ht⟩ := ih hvalue
    exact ⟨_, s, _, by simp only [List.append_assoc],
      .member hstart hbefore hkey hcolon hinner hafter hclose, ht⟩

/-- What stands before and after the gap in a whole text. -/
inductive EnclosesText (f : Frame) : List Char → List Char → Prop
  | mk {before left right after : List Char} : IsBlank before → Encloses f left right →
      IsBlank after → EnclosesText f (before ++ left) (right ++ after)

theorem EnclosesText.isText {f : Frame} {t : Phrase} {left s right : List Char}
    (h : EnclosesText f left right) (ht : IsValue t s) : IsText (f.fill t) (left ++ s ++ right) := by
  obtain ⟨hbefore, hf, hafter⟩ := h
  have htext := IsText.mk hbefore (hf.isValue ht) hafter
  simpa only [List.append_assoc] using htext

theorem exists_enclosesText {f : Frame} {t : Phrase} {text : List Char}
    (h : IsText (f.fill t) text) :
    ∃ left s right, text = left ++ s ++ right ∧ EnclosesText f left right ∧ IsValue t s := by
  generalize hfill : f.fill t = u at h
  obtain ⟨hbefore, hvalue, hafter⟩ := h
  subst hfill
  obtain ⟨left, s, right, rfl, hf, ht⟩ := exists_encloses hvalue
  exact ⟨_, s, _, by simp only [List.append_assoc], .mk hbefore hf hafter, ht⟩

/-- A text is read by the one phrase that it has. -/
theorem parse_fill_iff {f : Frame} {t : Phrase} {left s right : List Char}
    (hf : EnclosesText f left right) (ht : IsValue t s) (d : Data) :
    parse (left ++ s ++ right) = .ok d ↔
      (f.fill t).Fits IsPaired (¬ ·.Overflows) maxDepth ∧ f.data t.data = d := by
  rw [parse_eq_ok_iff, ← Frame.data_fill]
  constructor
  · rintro ⟨t', ht', hfits, rfl⟩
    obtain rfl := text_determined ht' (hf.isText ht)
    exact ⟨hfits, rfl⟩
  · rintro ⟨hfits, hdata⟩
    exact ⟨f.fill t, hf.isText ht, hfits, hdata⟩

end JsonAssert.Grammar
