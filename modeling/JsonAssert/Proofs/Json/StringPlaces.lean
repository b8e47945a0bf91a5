import JsonAssert.Proofs.Json.Frames

/-! The places of a text where a string stands, as a value or as a key. What stands before such a place
leaves nothing but a string to be read there. -/
namespace JsonAssert.Grammar
open Json

/-! What stands behind a gap's left side -/

section Leading

variable {α : Type} {IsItem : α → List Char → Prop}

theorem leading_ne_mark {mark : Char}
    (hhead : ∀ x s rest after, IsItem x s → skipBlanks (s ++ rest) ≠ mark :: after) {xs : List α}
    {s tail : List Char} (h : IsLeading IsItem xs s)
    (htail : ∀ after, skipBlanks tail ≠ mark :: after) (after : List Char) :
    skipBlanks (s ++ tail) ≠ mark :: after := by
  cases h with
  | nil => exact htail after
  | cons hx _ _ =>
    rw [List.append_assoc, List.append_assoc]
    exact hhead _ _ _ _ hx

/-- Where a list begins with items that are determined, an item stands behind them. -/
theorem exists_item_behind {before xs : List α} {left body rest after tail : List Char} {mark : Char}
    (hstop : IsStop mark) (hcomma : mark ≠ ',') (hbefore : IsLeading IsItem before left)
    (hitem : ∀ x ∈ before, IsDetermined IsItem x) (hbody : IsSeparated IsItem xs body)
    (hrest : skipBlanks rest = mark :: after)
    (heq : skipBlanks (body ++ rest) = skipBlanks (left ++ tail)) :
    ∃ x ∈ xs, ∃ s more, IsItem x s ∧ skipBlanks (s ++ more) = skipBlanks tail := by
  induction hbefore generalizing xs body with
  | nil =>
    cases hbody with
    | one hx => exact ⟨_, List.mem_cons_self, _, _, hx, heq⟩
    | more hx _ _ =>
      rw [List.append_assoc, List.append_assoc] at heq
      exact ⟨_, List.mem_cons_self, _, _, hx, heq⟩
  | @cons y before s comma t hy hmark _ ih =>
    obtain ⟨hfirst, hmore⟩ := List.forall_mem_cons.mp hitem
    obtain ⟨next, hnext, -⟩ := skipBlanks_mark hmark (by decide) (t ++ tail)
    have hstops := stops_of_skipBlanks hnext (by decide)
    rw [List.append_assoc, List.append_assoc] at heq
    cases hbody with
    | one hx =>
      obtain ⟨-, hskip⟩ :=
        hfirst _ _ _ _ _ hy hx hstops (stops_of_skipBlanks hrest hstop) heq.symm
      rw [hnext, hrest] at hskip
      exact absurd (List.cons.inj hskip).1.symm hcomma
    | @more x xs' s' comma' t' hx hmark' ht' =>
      obtain ⟨next', hnext', -⟩ := skipBlanks_mark hmark' (by decide) (t' ++ rest)
      rw [List.append_assoc, List.append_assoc] at heq
      obtain ⟨rfl, hskip⟩ :=
        hfirst _ _ _ _ _ hy hx hstops (stops_of_skipBlanks hnext' (by decide)) heq.symm
      obtain ⟨z, hz, hbehind⟩ :=
        ih hmore ht' (mark_determined (by decide) hmark' hmark hskip.symm)
      exact ⟨z, List.mem_cons_of_mem _ hz, hbehind⟩

/-- The same inside a container. -/
theorem IsContainer.exists_item_behind {before xs : List α} {opening closing : Char}
    {start left s rest tail : List Char} (hopening : isBlank opening = false)
    (hclosing : isBlank closing = false) (hstop : IsStop closing) (hcomma : closing ≠ ',')
    (hhead : ∀ x s rest after, IsItem x s → skipBlanks (s ++ rest) ≠ closing :: after)
    (h : IsContainer IsItem opening closing xs s) (hstart : IsMark opening start)
    (hbefore : IsLeading IsItem before left) (hitem : ∀ x ∈ before, IsDetermined IsItem x)
    (htail : ∀ after, skipBlanks tail ≠ closing :: after)
    (heq : skipBlanks (s ++ rest) = skipBlanks (start ++ (left ++ tail))) :
    ∃ x ∈ xs, ∃ s more, IsItem x s ∧ skipBlanks (s ++ more) = skipBlanks tail := by
  obtain ⟨start', body, close, rfl, hstart', hclose, hbody⟩ := h
  simp only [List.append_assoc] at heq
  have hinner := mark_determined hopening hstart' hstart heq
  obtain ⟨after, hafter, -⟩ := skipBlanks_mark hclose hclosing rest
  rcases hbody with ⟨-, rfl⟩ | hbody
  · rw [List.nil_append, hafter] at hinner
    exact absurd hinner.symm (leading_ne_mark hhead hbefore htail after)
  · exact Grammar.exists_item_behind hstop hcomma hbefore hitem hbody hafter hinner

end Leading

/-- A text that begins as a value does. -/
def StartsValue (tail : List Char) : Prop :=
  ∀ mark after, kindOf mark = none → skipBlanks tail ≠ mark :: after

theorem startsValue_of_skipBlanks {c : Char} {tail rest : List Char}
    (h : skipBlanks tail = c :: rest) (hc : kindOf c ≠ none) : StartsValue tail := by
  intro other after hother heq
  obtain ⟨rfl, -⟩ := List.cons.inj (h.symm.trans heq)
  exact hc hother

theorem startsValue_mark {mark : Char} {text : List Char} (h : IsMark mark text)
    (hblank : isBlank mark = false) (hmark : kindOf mark ≠ none) (tail : List Char) :
    StartsValue (text ++ tail) := by
  obtain ⟨rest, hrest, -⟩ := skipBlanks_mark h hblank tail
  exact startsValue_of_skipBlanks hrest hmark

theorem Encloses.startsValue {f : Frame} {left right tail : List Char} (h : Encloses f left right)
    (htail : StartsValue tail) : StartsValue (left ++ tail) := by
  cases h with
  | gap => exact htail
  | element hstart _ _ _ _ =>
    rw [List.append_assoc, List.append_assoc]
    exact startsValue_mark hstart (by decide) (by decide) _
  | member hstart _ _ _ _ _ _ =>
    simp only [List.append_assoc]
    exact startsValue_mark hstart (by decide) (by decide) _

theorem kind_of_skipBlanks {c : Char} {t : Phrase} {s rest after : List Char} (h : IsValue t s)
    (heq : skipBlanks (s ++ rest) = c :: after) : kindOf c = some t.kind := by
  obtain ⟨first, more, hfirst, hkind⟩ := exists_first h rest
  obtain ⟨rfl, -⟩ := List.cons.inj (hfirst.symm.trans heq)
  exact hkind

theorem kind_of_mark {mark : Char} {text : List Char} (h : IsMark mark text)
    (hblank : isBlank mark = false) {t : Phrase} {s rest tail : List Char} (ht : IsValue t s)
    (heq : skipBlanks (s ++ rest) = skipBlanks (text ++ tail)) : kindOf mark = some t.kind := by
  obtain ⟨after, hafter, -⟩ := skipBlanks_mark h hblank tail
  exact kind_of_skipBlanks ht (heq.trans hafter)

section Behind

variable {S : List Piece → Prop} {N : Numeral → Prop}

/-- What begins as an array does is one, and behind the items before it one of its items follows. -/
theorem exists_element_behind {before : List Phrase} {t : Phrase} {depth : ℕ}
    {start left s rest tail : List Char} (hstart : IsMark '[' start)
    (hbefore : IsLeading IsValue before left) (htail : StartsValue tail) (ht : IsValue t s)
    (hfits : t.Fits S N depth)
    (heq : skipBlanks (s ++ rest) = skipBlanks (start ++ (left ++ tail))) :
    ∃ (u : Phrase) (depth : ℕ) (s more : List Char), IsValue u s ∧ u.Fits S N depth ∧
      skipBlanks (s ++ more) = skipBlanks tail := by
  have hkind := kind_of_mark hstart (by decide) ht heq
  cases t with
  | array items =>
    cases hfits with
    | array hitems =>
      obtain ⟨u, hu, s', more, hs', hbehind⟩ :=
        (isContainer_of_array ht).exists_item_behind (by decide) (by decide) (by decide) (by decide)
          (value_ne_mark rfl) hstart hbefore (fun x _ => value_determined x)
          (fun after => htail ']' after rfl) heq
      exact ⟨u, _, s', more, hs', hitems u hu, hbehind⟩
  | _ => cases hkind

/-- What begins as an object does is one, and behind the members before it one of its members
follows. -/
theorem exists_member_behind {before : List (List Piece × Phrase)} {t : Phrase} {depth : ℕ}
    {start left s rest tail : List Char} (hstart : IsMark '\x7b' start)
    (hbefore : IsLeading (IsMember IsValue) before left)
    (ht : IsValue t s) (hfits : t.Fits S N depth)
    (heq : skipBlanks (s ++ rest) = skipBlanks (start ++ (left ++ '"' :: tail))) :
    ∃ (key : List Piece) (u : Phrase) (depth : ℕ) (k colon s more : List Char),
      S key ∧ IsString key k ∧ IsMark ':' colon ∧ IsValue u s ∧ u.Fits S N depth ∧
        k ++ (colon ++ (s ++ more)) = '"' :: tail := by
  have htail : skipBlanks ('"' :: tail) = '"' :: tail := skipBlanks_cons (by decide) _
  have hkind := kind_of_mark hstart (by decide) ht heq
  cases t with
  | object members =>
    cases hfits with
    | object hkeys hvalues =>
      obtain ⟨m, hm, _, more, hs', hbehind⟩ :=
        (isContainer_of_object ht).exists_item_behind (by decide) (by decide) (by decide)
          (by decide) (member_ne_mark (by decide)) hstart hbefore
          (fun m _ => member_determined (value_determined m.2))
          (fun after heq => absurd (htail.symm.trans heq) (by simp)) heq
      obtain ⟨hkey, hcolon, hx⟩ := hs'
      rw [List.append_assoc, List.append_assoc, skipBlanks_string hkey, htail] at hbehind
      exact ⟨_, _, _, _, _, _, more, hkeys _ hm, hkey, hcolon, hx, hvalues _ hm, hbehind⟩
  | _ => cases hkind

/-- Where a text is read as a value and begins as a frame does, a part of this value stands in the
place of the gap. -/
theorem Encloses.exists_value_behind {f : Frame} {left right : List Char} (h : Encloses f left right)
    {t : Phrase} {depth : ℕ} {s rest tail : List Char} (htail : StartsValue tail)
    (ht : IsValue t s) (hfits : t.Fits S N depth)
    (heq : skipBlanks (s ++ rest) = skipBlanks (left ++ tail)) :
    ∃ (u : Phrase) (depth : ℕ) (s more : List Char), IsValue u s ∧ u.Fits S N depth ∧
      skipBlanks (s ++ more) = skipBlanks tail := by
  induction h generalizing t depth s rest with
  | gap => exact ⟨t, depth, s, rest, ht, hfits, heq⟩
  | element hstart hbefore hinner _ _ ih =>
    rw [List.append_assoc, List.append_assoc] at heq
    obtain ⟨u, depth', s', more, hu, hfits', hbehind⟩ :=
      exists_element_behind hstart hbefore (hinner.startsValue htail) ht hfits heq
    exact ih hu hfits' hbehind
  | member hstart hbefore hkey hcolon hinner _ _ ih =>
    simp only [List.append_assoc] at heq
    have hstring := hkey
    obtain ⟨-⟩ := hstring
    obtain ⟨key', u, depth', k', colon', s', more, -, hkey', hcolon', hu, hfits', hbehind⟩ :=
      exists_member_behind hstart hbefore ht hfits heq
    obtain ⟨-, hvalue⟩ := string_determined hkey' hkey hbehind
    exact ih hu hfits' (mark_determined (by decide) hcolon' hcolon (congrArg skipBlanks hvalue))

theorem EnclosesText.exists_value_behind {f : Frame} {left right tail : List Char}
    (h : EnclosesText f left right) (htail : StartsValue tail) {t : Phrase} {depth : ℕ}
    (ht : IsText t (left ++ tail)) (hfits : t.Fits S N depth) :
    ∃ (u : Phrase) (depth : ℕ) (s more : List Char), IsValue u s ∧ u.Fits S N depth ∧
      skipBlanks (s ++ more) = skipBlanks tail := by
  obtain ⟨hblank, hf, -⟩ := h
  generalize htext : _ ++ tail = text at ht
  obtain ⟨hbefore, hvalue, -⟩ := ht
  have hskip := congrArg skipBlanks htext.symm
  rw [List.append_assoc, List.append_assoc, skipBlanks_append hbefore, skipBlanks_append hblank]
    at hskip
  exact hf.exists_value_behind htail hvalue hfits hskip

end Behind

/-! Places for strings -/

/-- A place for a string, that of a value or that of a key. -/
inductive StringPlace where
  | value (f : Frame)
  | key (f : Frame) (before : List (List Piece × Phrase)) (x : Phrase)
      (after : List (List Piece × Phrase))

namespace StringPlace

def fill : StringPlace → List Piece → Phrase
  | value f, pieces => f.fill (.string pieces)
  | key f before x after, pieces => f.fill (.object (before ++ (pieces, x) :: after))

/-- The data of a text with the string in this place. -/
def data : StringPlace → String → Data
  | value f, s => f.data (.text s)
  | key f before x after, s =>
    f.data (.dict (Dict.ofList (before.map entry ++ (.text s, x.data) :: after.map entry)))

/-- What stands before and after the string. -/
inductive Encloses : StringPlace → List Char → List Char → Prop
  | value {f : Frame} {left right : List Char} : EnclosesText f left right →
      Encloses (.value f) left right
  | key {f : Frame} {before after : List (List Piece × Phrase)} {x : Phrase}
      {left start s colon t u close right : List Char} : EnclosesText f left right →
      IsMark '\x7b' start → IsLeading (IsMember IsValue) before s → IsMark ':' colon →
      IsValue x t → IsTrailing (IsMember IsValue) after u → IsMark '\x7d' close →
      Encloses (.key f before x after) (left ++ (start ++ s))
        (colon ++ (t ++ (u ++ close)) ++ right)

theorem data_fill (p : StringPlace) (pieces : List Piece) :
    (p.fill pieces).data = p.data (.ofList (characters pieces)) := by
  cases p with
  | value f => rw [fill, Frame.data_fill, Phrase.data, data]
  | key f before x after =>
    rw [fill, Frame.data_fill, Phrase.data, dataOfMembers_eq_map, List.map_append, List.map_cons,
      data, entry]

theorem Encloses.isText {p : StringPlace} {left s right : List Char} {pieces : List Piece}
    (h : p.Encloses left right) (hs : IsString pieces s) :
    IsText (p.fill pieces) (left ++ s ++ right) := by
  cases h with
  | value hf => exact hf.isText (.string hs)
  | key hf hstart hbefore hcolon hx hafter hclose =>
    have hmember := IsMember.mk hs hcolon hx
    have hobject := IsValue.object hstart (hbefore.separated hmember hafter) hclose
    simpa only [List.append_assoc, fill] using hf.isText hobject

section Limits

variable {S : List Piece → Prop} {N : Numeral → Prop} {depth : ℕ}

theorem fits_fill {p : StringPlace} {pieces pieces' : List Piece}
    (h : (p.fill pieces).Fits S N depth) (hS : S pieces') : (p.fill pieces').Fits S N depth := by
  cases p with
  | value f => exact Frame.fits_fill h fun _ _ => .string hS
  | key f before x after =>
    refine Frame.fits_fill h fun _ hobject => ?_
    cases hobject with
    | object hkeys hvalues =>
      obtain ⟨hkeysBefore, -, hkeysAfter⟩ := forall_mem_around.mp hkeys
      obtain ⟨hbefore, hx, hafter⟩ := forall_mem_around.mp hvalues
      exact .object (forall_mem_around.mpr ⟨hkeysBefore, hS, hkeysAfter⟩)
        (forall_mem_around.mpr ⟨hbefore, hx, hafter⟩)

end Limits

/-- All but the string is within the limits. -/
def IsWithinLimits (p : StringPlace) : Prop :=
  (p.fill []).Fits IsPaired (¬ ·.Overflows) maxDepth

/-- A text with some string in the place is read as the data with the string's characters, whatever
the string and however it is spelled. -/
theorem parse_iff {p : StringPlace} {left s right : List Char} {pieces : List Piece}
    (h : p.Encloses left right) (hs : IsString pieces s) (hpaired : IsPaired pieces) (d : Data) :
    parse (left ++ s ++ right) = .ok d ↔
      p.IsWithinLimits ∧ d = p.data (.ofList (characters pieces)) := by
  rw [parse_eq_ok_iff, ← data_fill]
  constructor
  · rintro ⟨t, ht, hfits, rfl⟩
    obtain rfl := text_determined ht (h.isText hs)
    exact ⟨fits_fill hfits .nil, rfl⟩
  · rintro ⟨hlimits, rfl⟩
    exact ⟨_, h.isText hs, fits_fill hlimits hpaired, rfl⟩

theorem eq_of_isString {pieces : List Piece} {s rest tail : List Char} (h : IsString pieces s)
    (heq : s ++ rest = '"' :: tail) :
    (∀ q ∈ pieces, q.IsAllowed) ∧ tail = pieces.flatMap Piece.spelling ++ '"' :: rest := by
  obtain ⟨hallowed⟩ := h
  rw [List.cons_append, List.append_assoc] at heq
  exact ⟨hallowed, (List.cons.inj heq).2.symm⟩

/-- In a text that is read a string stands in the place. -/
theorem exists_string_behind {p : StringPlace} {left right tail : List Char} {d : Data}
    (h : p.Encloses left right) (hparse : parse (left ++ '"' :: tail) = .ok d) :
    ∃ pieces rest, IsPaired pieces ∧ (∀ q ∈ pieces, q.IsAllowed) ∧
      tail = pieces.flatMap Piece.spelling ++ '"' :: rest := by
  obtain ⟨t, ht, hfits, -⟩ := (parse_eq_ok_iff _ d).mp hparse
  cases h with
  | value hf =>
    have hquote : skipBlanks ('"' :: tail) = '"' :: tail := skipBlanks_cons (by decide) _
    obtain ⟨u, depth, s, more, hu, hfits, heq⟩ :=
      hf.exists_value_behind (startsValue_of_skipBlanks hquote (by decide)) ht hfits
    have hkind := kind_of_skipBlanks hu (heq.trans hquote)
    cases u with
    | string pieces =>
      cases hfits with
      | string hpaired =>
        cases hu with
        | string hs =>
          rw [skipBlanks_string hs, hquote] at heq
          obtain ⟨hallowed, htail⟩ := eq_of_isString hs heq
          exact ⟨pieces, _, hpaired, hallowed, htail⟩
    | _ => cases hkind
  | key hf hstart hbefore _ _ _ _ =>
    rw [List.append_assoc, List.append_assoc] at ht
    obtain ⟨u, depth, s, more, hu, hfits, heq⟩ :=
      hf.exists_value_behind (startsValue_mark hstart (by decide) (by decide) _) ht hfits
    obtain ⟨pieces, _, _, k, _, _, _, hpaired, hkey, -, -, -, hmember⟩ :=
      exists_member_behind hstart hbefore hu hfits heq
    obtain ⟨hallowed, htail⟩ := eq_of_isString hkey hmember
    exact ⟨pieces, _, hpaired, hallowed, htail⟩

end StringPlace

end JsonAssert.Grammar
