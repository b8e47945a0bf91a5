import JsonAssert.Proofs.Json.Acceptance

/-! The grammar is unambiguous: a text has at most one phrase. Blanks between two tokens may count to
either of them, so where the parts of a phrase end is determined up to blanks alone. -/
namespace JsonAssert.Grammar
open Json

/-- Of what starts a text, the item is determined, and what follows it up to blanks. -/
def IsDetermined {α : Type} (IsItem : α → List Char → Prop) (x : α) : Prop :=
  ∀ (x' : α) (s s' rest rest' : List Char), IsItem x s → IsItem x' s' → Stops rest →
    Stops rest' → skipBlanks (s ++ rest) = skipBlanks (s' ++ rest') →
    x = x' ∧ skipBlanks rest = skipBlanks rest'

/-! Strings -/

theorem piece_determined {p p' : Piece} (hp : p.IsAllowed) (hp' : p'.IsAllowed)
    {s s' : List Char} (h : p.spelling ++ s = p'.spelling ++ s') : p = p' ∧ s = s' := by
  cases p with
  | raw c =>
    cases p' with
    | raw c' => simpa [Piece.spelling] using h
    | _ =>
      obtain ⟨rfl, -⟩ := List.cons.inj h
      exact absurd rfl hp.2.2
  | letter c =>
    cases p' with
    | raw c' =>
      obtain ⟨rfl, -⟩ := List.cons.inj h
      exact absurd rfl hp'.2.2
    | letter c' => simpa [Piece.spelling] using h
    | code _ _ _ _ =>
      obtain ⟨rfl, -⟩ := List.cons.inj (List.cons.inj h).2
      exact absurd hp (by simp [Piece.IsAllowed])
  | code _ _ _ _ =>
    cases p' with
    | raw c' =>
      obtain ⟨rfl, -⟩ := List.cons.inj h
      exact absurd rfl hp'.2.2
    | letter c' =>
      obtain ⟨rfl, -⟩ := List.cons.inj (List.cons.inj h).2
      exact absurd hp' (by simp [Piece.IsAllowed])
    | code _ _ _ _ => simpa [Piece.spelling, and_assoc] using h

/-- A closing quote is no piece. -/
theorem spelling_append_ne_quote {p : Piece} (hp : p.IsAllowed) (s rest : List Char) :
    p.spelling ++ s ≠ '"' :: rest := by
  intro h
  cases p with
  | raw c =>
    obtain ⟨rfl, -⟩ := List.cons.inj h
    exact hp.2.1 rfl
  | _ => exact absurd (List.cons.inj h).1 (by decide)

theorem pieces_determined {pieces pieces' : List Piece} (h : ∀ p ∈ pieces, p.IsAllowed)
    (h' : ∀ p ∈ pieces', p.IsAllowed) {rest rest' : List Char}
    (heq : pieces.flatMap Piece.spelling ++ '"' :: rest =
      pieces'.flatMap Piece.spelling ++ '"' :: rest') : pieces = pieces' ∧ rest = rest' := by
  induction pieces generalizing pieces' with
  | nil =>
    cases pieces' with
    | nil => exact ⟨rfl, (List.cons.inj heq).2⟩
    | cons p' pieces' =>
      rw [List.flatMap_cons, List.append_assoc] at heq
      exact absurd heq.symm (spelling_append_ne_quote (h' p' List.mem_cons_self) _ _)
  | cons p pieces ih =>
    obtain ⟨hp, hpieces⟩ := List.forall_mem_cons.mp h
    rw [List.flatMap_cons, List.append_assoc] at heq
    cases pieces' with
    | nil => exact absurd heq (spelling_append_ne_quote hp _ _)
    | cons p' pieces' =>
      obtain ⟨hp', hpieces'⟩ := List.forall_mem_cons.mp h'
      rw [List.flatMap_cons, List.append_assoc] at heq
      obtain ⟨rfl, hmore⟩ := piece_determined hp hp' heq
      obtain ⟨rfl, hrest⟩ := ih hpieces hpieces' hmore
      exact ⟨rfl, hrest⟩

theorem string_determined {pieces pieces' : List Piece} {s s' rest rest' : List Char}
    (h : IsString pieces s) (h' : IsString pieces' s') (heq : s ++ rest = s' ++ rest') :
    pieces = pieces' ∧ rest = rest' := by
  obtain ⟨hallowed⟩ := h
  obtain ⟨hallowed'⟩ := h'
  rw [List.cons_append, List.cons_append, List.append_assoc, List.append_assoc] at heq
  exact pieces_determined hallowed hallowed' (List.cons.inj heq).2

theorem skipBlanks_string {pieces : List Piece} {s : List Char} (h : IsString pieces s)
    (rest : List Char) : skipBlanks (s ++ rest) = s ++ rest := by
  obtain ⟨-⟩ := h
  exact skipBlanks_cons (by decide) _

/-! Items -/

theorem mark_determined {mark : Char} (hmark : isBlank mark = false) {text text' s s' : List Char}
    (h : IsMark mark text) (h' : IsMark mark text')
    (heq : skipBlanks (text ++ s) = skipBlanks (text' ++ s')) : skipBlanks s = skipBlanks s' := by
  obtain ⟨after, hafter, hskip⟩ := skipBlanks_mark h hmark s
  obtain ⟨after', hafter', hskip'⟩ := skipBlanks_mark h' hmark s'
  rw [hafter, hafter'] at heq
  rw [← hskip, ← hskip', (List.cons.inj heq).2]

variable {α : Type} {IsItem : α → List Char → Prop}

/-- Behind the last item stands another mark than a comma. -/
theorem separated_determined {xs xs' : List α} {s s' rest rest' after after' : List Char}
    {mark : Char} (hstop : IsStop mark) (hcomma : mark ≠ ',')
    (hitem : ∀ x ∈ xs, IsDetermined IsItem x) (h : IsSeparated IsItem xs s)
    (h' : IsSeparated IsItem xs' s') (hrest : skipBlanks rest = mark :: after)
    (hrest' : skipBlanks rest' = mark :: after')
    (heq : skipBlanks (s ++ rest) = skipBlanks (s' ++ rest')) :
    xs = xs' ∧ skipBlanks rest = skipBlanks rest' := by
  have hstops := stops_of_skipBlanks hrest hstop
  have hstops' := stops_of_skipBlanks hrest' hstop
  -- Where only one of the two lists goes on, a comma would be the closing mark.
  induction h generalizing xs' s' with
  | @one x s hx =>
    cases h' with
    | @one x' _ hx' =>
      obtain ⟨rfl, hskip⟩ := hitem x List.mem_cons_self _ _ _ _ _ hx hx' hstops hstops' heq
      exact ⟨rfl, hskip⟩
    | @more x' xs' s' comma t hx' hmark _ =>
      obtain ⟨next, hnext, -⟩ := skipBlanks_mark hmark (by decide) (t ++ rest')
      rw [List.append_assoc, List.append_assoc] at heq
      obtain ⟨-, hskip⟩ := hitem x List.mem_cons_self _ _ _ _ _ hx hx' hstops
        (stops_of_skipBlanks hnext (by decide)) heq
      rw [hrest, hnext] at hskip
      exact absurd (List.cons.inj hskip).1 hcomma
  | @more x xs s comma t hx hmark _ ih =>
    obtain ⟨hfirst, hmore⟩ := List.forall_mem_cons.mp hitem
    obtain ⟨next, hnext, -⟩ := skipBlanks_mark hmark (by decide) (t ++ rest)
    rw [List.append_assoc, List.append_assoc] at heq
    have hcommaStops := stops_of_skipBlanks hnext (by decide)
    cases h' with
    | @one x' _ hx' =>
      obtain ⟨-, hskip⟩ := hfirst _ _ _ _ _ hx hx' hcommaStops hstops' heq
      rw [hnext, hrest'] at hskip
      exact absurd (List.cons.inj hskip).1.symm hcomma
    | @more x' xs' s' comma' t' hx' hmark' ht' =>
      obtain ⟨next', hnext', -⟩ := skipBlanks_mark hmark' (by decide) (t' ++ rest')
      rw [List.append_assoc, List.append_assoc] at heq
      obtain ⟨rfl, hskip⟩ := hfirst _ _ _ _ _ hx hx' hcommaStops
        (stops_of_skipBlanks hnext' (by decide)) heq
      obtain ⟨rfl, hafter⟩ := ih hmore ht' (mark_determined (by decide) hmark hmark' hskip)
      exact ⟨rfl, hafter⟩

/-- An opening mark, items, and a closing mark. -/
def IsContainer (IsItem : α → List Char → Prop) (opening closing : Char) (xs : List α)
    (s : List Char) : Prop :=
  ∃ start body close, s = start ++ (body ++ close) ∧ IsMark opening start ∧ IsMark closing close ∧
    (xs = [] ∧ body = [] ∨ IsSeparated IsItem xs body)

theorem separated_ne_mark {mark : Char}
    (hhead : ∀ x s rest after, IsItem x s → skipBlanks (s ++ rest) ≠ mark :: after) {xs : List α}
    {s : List Char} (h : IsSeparated IsItem xs s) (rest after : List Char) :
    skipBlanks (s ++ rest) ≠ mark :: after := by
  cases h with
  | one hx => exact hhead _ _ _ _ hx
  | more hx _ _ =>
    rw [List.append_assoc, List.append_assoc]
    exact hhead _ _ _ _ hx

theorem container_determined {opening closing : Char} (hopening : isBlank opening = false)
    (hclosing : isBlank closing = false) (hstop : IsStop closing) (hcomma : closing ≠ ',')
    (hhead : ∀ x s rest after, IsItem x s → skipBlanks (s ++ rest) ≠ closing :: after)
    {xs : List α} (hitem : ∀ x ∈ xs, IsDetermined IsItem x) :
    IsDetermined (IsContainer IsItem opening closing) xs := by
  rintro xs' s s' rest rest' ⟨start, body, close, rfl, hstart, hclose, hbody⟩
    ⟨start', body', close', rfl, hstart', hclose', hbody'⟩ - - heq
  simp only [List.append_assoc] at heq
  have hinner := mark_determined hopening hstart hstart' heq
  obtain ⟨after, hafter, -⟩ := skipBlanks_mark hclose hclosing rest
  obtain ⟨after', hafter', -⟩ := skipBlanks_mark hclose' hclosing rest'
  rcases hbody with ⟨rfl, rfl⟩ | hbody
  · rcases hbody' with ⟨rfl, rfl⟩ | hbody'
    · exact ⟨rfl, mark_determined hclosing hclose hclose' hinner⟩
    · rw [List.nil_append, hafter] at hinner
      exact absurd hinner.symm (separated_ne_mark hhead hbody' _ _)
  · rcases hbody' with ⟨rfl, rfl⟩ | hbody'
    · rw [List.nil_append, hafter'] at hinner
      exact absurd hinner (separated_ne_mark hhead hbody _ _)
    · obtain ⟨rfl, hskip⟩ :=
        separated_determined hstop hcomma hitem hbody hbody' hafter hafter' hinner
      exact ⟨rfl, mark_determined hclosing hclose hclose' hskip⟩

theorem member_determined {IsItem : Phrase → List Char → Prop} {m : List Piece × Phrase}
    (hitem : IsDetermined IsItem m.2) : IsDetermined (IsMember IsItem) m := by
  rintro _ _ _ rest rest' ⟨hkey, hcolon, hx⟩ ⟨hkey', hcolon', hx'⟩ hrest hrest' heq
  simp only [List.append_assoc] at heq
  rw [skipBlanks_string hkey, skipBlanks_string hkey'] at heq
  obtain ⟨rfl, hvalue⟩ := string_determined hkey hkey' heq
  have hskip := mark_determined (by decide) hcolon hcolon' (congrArg skipBlanks hvalue)
  obtain ⟨rfl, hafter⟩ := hitem _ _ _ _ _ hx hx' hrest hrest' hskip
  exact ⟨rfl, hafter⟩

/-! Values -/

/-- Induction over the phrases in a phrase. -/
@[elab_as_elim]
theorem Phrase.induction_parts {motive : Phrase → Prop} (t : Phrase)
    (literal : ∀ l, motive (.literal l)) (numeral : ∀ n, motive (.numeral n))
    (string : ∀ pieces, motive (.string pieces))
    (array : ∀ items : List Phrase, (∀ t ∈ items, motive t) → motive (.array items))
    (object : ∀ members : List (List Piece × Phrase), (∀ m ∈ members, motive m.2) →
      motive (.object members)) : motive t := by
  induction hsize : sizeOf t using Nat.strong_induction_on generalizing t with
  | _ size ih =>
    subst hsize
    cases t with
    | literal l => exact literal l
    | numeral n => exact numeral n
    | string pieces => exact string pieces
    | array items =>
      refine array items fun t ht => ih (sizeOf t) ?_ t rfl
      have hless := List.sizeOf_lt_of_mem ht
      simp only [Phrase.array.sizeOf_spec]
      omega
    | object members =>
      refine object members fun m hm => ih (sizeOf m.2) ?_ m.2 rfl
      have hless := List.sizeOf_lt_of_mem hm
      obtain ⟨key, t⟩ := m
      simp only [Prod.mk.sizeOf_spec, Phrase.object.sizeOf_spec] at hless ⊢
      omega

inductive Kind where
  | literal (l : Literal)
  | numeral | string | array | object

def Phrase.kind : Phrase → Kind
  | .literal l => .literal l
  | .numeral _ => .numeral
  | .string _ => .string
  | .array _ => .array
  | .object _ => .object

/-- The first character of a phrase tells its kind. -/
def kindOf (c : Char) : Option Kind :=
  if IsDigit c ∨ c = '-' then some .numeral
  else
    match c with
    | 'n' => some (.literal .null)
    | 't' => some (.literal .true)
    | 'f' => some (.literal .false)
    | '"' => some .string
    | '[' => some .array
    | '\x7b' => some .object
    | _ => none

theorem isContainer_of_array {items : List Phrase} {s : List Char} (h : IsValue (.array items) s) :
    IsContainer IsValue '[' ']' items s := by
  cases h with
  | emptyArray hstart hclose => exact ⟨_, [], _, rfl, hstart, hclose, .inl ⟨rfl, rfl⟩⟩
  | array hstart hitems hclose =>
    exact ⟨_, _, _, List.append_assoc .., hstart, hclose, .inr hitems⟩

theorem isContainer_of_object {members : List (List Piece × Phrase)} {s : List Char}
    (h : IsValue (.object members) s) :
    IsContainer (IsMember IsValue) '\x7b' '\x7d' members s := by
  cases h with
  | emptyObject hstart hclose => exact ⟨_, [], _, rfl, hstart, hclose, .inl ⟨rfl, rfl⟩⟩
  | object hstart hmembers hclose =>
    exact ⟨_, _, _, List.append_assoc .., hstart, hclose, .inr hmembers⟩

theorem exists_first_of_container {opening closing : Char} (hopening : isBlank opening = false)
    {xs : List α} {s : List Char} (h : IsContainer IsItem opening closing xs s)
    (rest : List Char) :
    ∃ s', skipBlanks (s ++ rest) = opening :: s' := by
  obtain ⟨start, body, close, rfl, hstart, -⟩ := h
  obtain ⟨s', hs', -⟩ := skipBlanks_mark hstart hopening (body ++ close ++ rest)
  exact ⟨s', by rw [List.append_assoc, hs']⟩

theorem exists_first {t : Phrase} {s : List Char} (h : IsValue t s) (rest : List Char) :
    ∃ c s', skipBlanks (s ++ rest) = c :: s' ∧ kindOf c = some t.kind := by
  cases t with
  | literal l =>
    cases h
    cases l <;> exact ⟨_, _, skipBlanks_cons (by decide) _, if_neg (by decide)⟩
  | numeral n =>
    cases h with
    | numeral hn =>
      obtain ⟨c, s', rfl, hc⟩ := head_of_isNumeral hn
      exact ⟨c, _, skipBlanks_cons (not_blank_of_numeral hc) _, if_pos hc⟩
  | string pieces =>
    cases h with
    | string hs =>
      obtain ⟨-⟩ := hs
      exact ⟨'"', _, skipBlanks_cons (by decide) _, if_neg (by decide)⟩
  | array items =>
    obtain ⟨s', hs'⟩ := exists_first_of_container (by decide) (isContainer_of_array h) rest
    exact ⟨'[', s', hs', if_neg (by decide)⟩
  | object members =>
    obtain ⟨s', hs'⟩ := exists_first_of_container (by decide) (isContainer_of_object h) rest
    exact ⟨'\x7b', s', hs', if_neg (by decide)⟩

theorem kind_eq {t t' : Phrase} {s s' rest rest' : List Char} (h : IsValue t s)
    (h' : IsValue t' s') (heq : skipBlanks (s ++ rest) = skipBlanks (s' ++ rest')) :
    t.kind = t'.kind := by
  obtain ⟨c, more, hc, hkind⟩ := exists_first h rest
  obtain ⟨c', more', hc', hkind'⟩ := exists_first h' rest'
  rw [hc, hc'] at heq
  rw [(List.cons.inj heq).1, hkind'] at hkind
  exact (Option.some.inj hkind).symm

theorem value_ne_mark {mark : Char} (hmark : kindOf mark = none) (t : Phrase)
    (s rest after : List Char) (h : IsValue t s) : skipBlanks (s ++ rest) ≠ mark :: after := by
  obtain ⟨c, s', hc, hkind⟩ := exists_first h rest
  intro heq
  rw [hc] at heq
  obtain ⟨rfl, -⟩ := List.cons.inj heq
  rw [hmark] at hkind
  cases hkind

theorem member_ne_mark {mark : Char} (hmark : '"' ≠ mark) (m : List Piece × Phrase)
    (s rest after : List Char) (h : IsMember IsValue m s) :
    skipBlanks (s ++ rest) ≠ mark :: after := by
  obtain ⟨⟨-⟩, -, -⟩ := h
  intro heq
  rw [List.append_assoc, List.append_assoc, List.cons_append, skipBlanks_cons (by decide)] at heq
  exact hmark (List.cons.inj heq).1

theorem skipBlanks_literal (l : Literal) (rest : List Char) :
    skipBlanks (l.spelling ++ rest) = l.spelling ++ rest := by
  cases l <;> exact skipBlanks_cons (by decide) _

theorem skipBlanks_numeral {n : Numeral} {s : List Char} (h : IsNumeral n s) (rest : List Char) :
    skipBlanks (s ++ rest) = s ++ rest := by
  obtain ⟨c, s', rfl, hc⟩ := head_of_isNumeral h
  exact skipBlanks_cons (not_blank_of_numeral hc) _

theorem literal_determined (l : Literal) : IsDetermined IsValue (.literal l) := by
  intro t' s s' rest rest' h h' _ _ heq
  have hkind := kind_eq h h' heq
  cases t' with
  | literal l' =>
    cases hkind
    cases h
    cases h'
    rw [skipBlanks_literal, skipBlanks_literal] at heq
    exact ⟨rfl, congrArg skipBlanks (List.append_cancel_left heq)⟩
  | _ => cases hkind

theorem numeral_determined (n : Numeral) : IsDetermined IsValue (.numeral n) := by
  intro t' s s' rest rest' h h' hrest hrest' heq
  have hkind := kind_eq h h' heq
  cases t' with
  | numeral n' =>
    cases h with
    | numeral hn =>
      cases h' with
      | numeral hn' =>
        rw [skipBlanks_numeral hn, skipBlanks_numeral hn'] at heq
        have hread := numeral_append hn hrest
        rw [heq, numeral_append hn' hrest'] at hread
        obtain ⟨rfl, rfl⟩ := Prod.mk.inj (Except.ok.inj hread)
        exact ⟨rfl, rfl⟩
  | _ => cases hkind

theorem stringPhrase_determined (pieces : List Piece) : IsDetermined IsValue (.string pieces) := by
  intro t' s s' rest rest' h h' _ _ heq
  have hkind := kind_eq h h' heq
  cases t' with
  | string pieces' =>
    cases h with
    | string hs =>
      cases h' with
      | string hs' =>
        rw [skipBlanks_string hs, skipBlanks_string hs'] at heq
        obtain ⟨rfl, rfl⟩ := string_determined hs hs' heq
        exact ⟨rfl, rfl⟩
  | _ => cases hkind

theorem array_determined {items : List Phrase} (hitem : ∀ t ∈ items, IsDetermined IsValue t) :
    IsDetermined IsValue (.array items) := by
  intro t' s s' rest rest' h h' hrest hrest' heq
  have hkind := kind_eq h h' heq
  cases t' with
  | array items' =>
    obtain ⟨rfl, hskip⟩ := container_determined (by decide) (by decide) (by decide) (by decide)
      (value_ne_mark rfl) hitem _ _ _ _ _ (isContainer_of_array h) (isContainer_of_array h')
      hrest hrest' heq
    exact ⟨rfl, hskip⟩
  | _ => cases hkind

theorem object_determined {members : List (List Piece × Phrase)}
    (hitem : ∀ m ∈ members, IsDetermined IsValue m.2) : IsDetermined IsValue (.object members) := by
  intro t' s s' rest rest' h h' hrest hrest' heq
  have hkind := kind_eq h h' heq
  cases t' with
  | object members' =>
    obtain ⟨rfl, hskip⟩ := container_determined (by decide) (by decide) (by decide) (by decide)
      (member_ne_mark (by decide)) (fun m hm => member_determined (hitem m hm)) _ _ _ _ _
      (isContainer_of_object h) (isContainer_of_object h') hrest hrest' heq
    exact ⟨rfl, hskip⟩
  | _ => cases hkind

/-- The phrase of a value is determined, and so is the end of the value up to blanks. -/
theorem value_determined (t : Phrase) : IsDetermined IsValue t := by
  induction t using Phrase.induction_parts with
  | literal l => exact literal_determined l
  | numeral n => exact numeral_determined n
  | string pieces => exact stringPhrase_determined pieces
  | array items ih => exact array_determined ih
  | object members ih => exact object_determined ih

/-- A text has one phrase at most. -/
theorem text_determined {t t' : Phrase} {s : List Char} (h : IsText t s) (h' : IsText t' s) :
    t = t' := by
  generalize hs' : s = s' at h'
  obtain ⟨hbefore, hvalue, hafter⟩ := h
  obtain ⟨hbefore', hvalue', hafter'⟩ := h'
  have hskip := congrArg skipBlanks hs'
  rw [List.append_assoc, List.append_assoc, skipBlanks_append hbefore, skipBlanks_append hbefore']
    at hskip
  exact (value_determined t _ _ _ _ _ hvalue hvalue' (stops_of_isBlank hafter)
    (stops_of_isBlank hafter') hskip).1

end JsonAssert.Grammar
