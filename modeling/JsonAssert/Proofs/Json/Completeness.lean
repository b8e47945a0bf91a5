import JsonAssert.Proofs.Json.NumeralReading
import JsonAssert.Proofs.Json.StringReading

/-! The reader of values takes every phrase of the grammar that fits into its depth. Blanks around a
phrase may be left to what is read next. -/
namespace JsonAssert.Json
open Grammar

/-! Blanks -/

theorem isBlank_iff (c : Char) : isBlank c = true ↔ c = ' ' ∨ c = '\t' ∨ c = '\n' ∨ c = '\r' := by
  simp [isBlank, or_assoc]

theorem skipBlanks_append {b : List Char} (h : IsBlank b) (s : List Char) :
    skipBlanks (b ++ s) = skipBlanks s :=
  List.dropWhile_append_of_pos fun c hc => (isBlank_iff c).mpr (h c hc)

theorem skipBlanks_cons {c : Char} (hc : isBlank c = false) (s : List Char) :
    skipBlanks (c :: s) = c :: s :=
  List.dropWhile_cons_of_neg (by simp [hc])

theorem exists_blanks (s : List Char) : ∃ b, s = b ++ skipBlanks s ∧ IsBlank b :=
  ⟨s.takeWhile isBlank, List.takeWhile_append_dropWhile.symm,
    fun c hc => (isBlank_iff c).mp (List.mem_takeWhile_imp hc)⟩

/-- Up to the blanks before it, a mark is its character. -/
theorem skipBlanks_mark {mark : Char} {text : List Char} (h : IsMark mark text)
    (hmark : isBlank mark = false) (s : List Char) :
    ∃ s', skipBlanks (text ++ s) = mark :: s' ∧ skipBlanks s' = skipBlanks s := by
  obtain ⟨hbefore, hafter⟩ := h
  next before after =>
  refine ⟨after ++ s, ?_, skipBlanks_append hafter s⟩
  rw [List.append_assoc, skipBlanks_append hbefore]
  exact skipBlanks_cons hmark _

/-- A character that ends a numeral, and so may follow any value. -/
def IsStop (c : Char) : Prop := ¬ IsDigit c ∧ c ≠ '.' ∧ ¬ IsExponentMark c

instance (c : Char) : Decidable (IsStop c) := inferInstanceAs (Decidable (_ ∧ _))

theorem isStop_of_isBlank {c : Char} (h : isBlank c = true) : IsStop c := by
  rcases (isBlank_iff c).mp h with rfl | rfl | rfl | rfl <;> decide

theorem stops_of_skipBlanks {c : Char} {s s' : List Char} (h : skipBlanks s = c :: s')
    (hc : IsStop c) : Stops s := by
  intro d hd
  cases s with
  | nil => simp at hd
  | cons e s =>
    obtain rfl : e = d := by simpa using hd
    by_cases hblank : isBlank e = true
    · exact isStop_of_isBlank hblank
    · rw [skipBlanks_cons (by simpa using hblank)] at h
      obtain ⟨rfl, -⟩ : _ ∧ _ := by simpa using h
      exact hc

theorem stops_of_isBlank {b : List Char} (h : IsBlank b) : Stops b := by
  intro c hc
  cases b with
  | nil => simp at hc
  | cons d b =>
    obtain rfl : d = c := by simpa using hc
    exact isStop_of_isBlank ((isBlank_iff d).mpr (h d List.mem_cons_self))

/-! Items -/

/-- The reader takes a text, wherever it stands, and gives a result for it. -/
def Takes {α : Type} (read : Reader α) (s : List Char) (x : α) : Prop :=
  ∀ rest, Stops rest →
    ∃ rest', read (skipBlanks (s ++ rest)) = .ok (x, rest') ∧ skipBlanks rest' = skipBlanks rest

/-- The text shows its own end, so the reader takes it whatever follows. -/
def TakesAlways {α : Type} (read : Reader α) (s : List Char) (x : α) : Prop :=
  ∀ rest, ∃ rest', read (skipBlanks (s ++ rest)) = .ok (x, rest') ∧
    skipBlanks rest' = skipBlanks rest

theorem TakesAlways.takes {α : Type} {read : Reader α} {s : List Char} {x : α}
    (h : TakesAlways read s x) : Takes read s x :=
  fun rest _ => h rest

namespace Closing

/-- The mark of a kind of container can stand neither for a blank, nor for a comma, nor for the
beginning of an item. -/
structure IsSafe {α : Type} (closing : Closing) (item : Reader α) : Prop where
  stop : IsStop closing.mark
  not_blank : isBlank closing.mark = false
  not_comma : closing.mark ≠ ','
  not_item : ∀ s x, item (closing.mark :: s) ≠ .ok x

end Closing

variable {α β : Type} {closing : Closing} {item : Reader α}

theorem head_of_separated (hsafe : closing.IsSafe item) {rounds : ℕ} {s : List Char}
    {r : List α × List Char} (h : separated closing item rounds s = .ok r) :
    s.head? ≠ some closing.mark := by
  intro hhead
  cases rounds with
  | zero => simp [separated] at h
  | succ rounds =>
    cases s with
    | nil => simp at hhead
    | cons c s =>
      obtain rfl : c = closing.mark := by simpa using hhead
      unfold separated at h
      split at h
      · simp at h
      · next hitem => exact hsafe.not_item _ _ hitem

theorem separated_append {IsItem : β → List Char → Prop} {f : β → α} {xs : List β}
    {s rest after : List Char} (hsafe : closing.IsSafe item) (hxs : IsSeparated IsItem xs s)
    (hitem : ∀ x ∈ xs, ∀ s', s'.length ≤ s.length → IsItem x s' → Takes item s' (f x))
    (hrest : skipBlanks rest = closing.mark :: after) {rounds : ℕ} (hrounds : xs.length ≤ rounds) :
    separated closing item rounds (skipBlanks (s ++ rest)) = .ok (xs.map f, after) := by
  induction hxs generalizing rounds with
  | @one x s hx =>
    obtain ⟨rounds, rfl⟩ : ∃ r, rounds = r + 1 := ⟨rounds - 1, by simp at hrounds; omega⟩
    obtain ⟨rest', hread, hskip⟩ := hitem x List.mem_cons_self s le_rfl hx rest
      (stops_of_skipBlanks hrest hsafe.stop)
    simp [separated, hread, hskip, hrest]
  | @more x xs s comma t hx hcomma _ ih =>
    obtain ⟨rounds, rfl⟩ : ∃ r, rounds = r + 1 := ⟨rounds - 1, by simp at hrounds; omega⟩
    obtain ⟨next, hmark, hnext⟩ := skipBlanks_mark hcomma (by decide) (t ++ rest)
    obtain ⟨rest', hread, hskip⟩ := hitem x List.mem_cons_self s (by simp) hx
      (comma ++ (t ++ rest)) (stops_of_skipBlanks hmark (by decide))
    have htail : ∀ s' : List Char, s'.length ≤ t.length → s'.length ≤ (s ++ comma ++ t).length := by
      intro s' hs'
      simp only [List.length_append]
      omega
    have hlength : xs.length ≤ rounds := by simpa using hrounds
    have hmore := ih (fun y hy s' hs' => hitem y (List.mem_cons_of_mem x hy) s' (htail s' hs'))
      hlength
    have hhead := head_of_separated hsafe hmore
    rw [← hnext] at hmore hhead
    have htext : s ++ comma ++ t ++ rest = s ++ (comma ++ (t ++ rest)) := by simp
    rw [htext, separated]
    simp [hread, hskip, hmark, hmore, hhead, hsafe.not_comma.symm]

theorem items_of_empty {s after : List Char} (rounds : ℕ)
    (hs : skipBlanks s = closing.mark :: after) :
    items closing item rounds s = .ok ([], after) := by
  simp [items, hs]

theorem items_append {IsItem : β → List Char → Prop} {f : β → α} {xs : List β}
    {s rest after : List Char} (hsafe : closing.IsSafe item) (hxs : IsSeparated IsItem xs s)
    (hitem : ∀ x ∈ xs, ∀ s', s'.length ≤ s.length → IsItem x s' → Takes item s' (f x))
    (hrest : skipBlanks rest = closing.mark :: after) {rounds : ℕ} (hrounds : xs.length ≤ rounds) :
    items closing item rounds (s ++ rest) = .ok (xs.map f, after) := by
  have hread := separated_append hsafe hxs hitem hrest hrounds
  rw [items, if_neg (head_of_separated hsafe hread), hread]

/-- A list of items is no longer than its text and one character more. -/
theorem length_le_of_separated {IsItem : β → List Char → Prop} {xs : List β} {s : List Char}
    (h : IsSeparated IsItem xs s) : xs.length ≤ s.length + 1 := by
  induction h with
  | one _ => simp
  | more _ hcomma _ ih =>
    obtain ⟨-, -⟩ := hcomma
    simp only [List.length_cons, List.length_append] at ih ⊢
    omega

/-! Values from the grammar to the reader -/

theorem ne_of_numeral {c d : Char} (hc : IsDigit c ∨ c = '-') (hd : ¬ IsDigit d)
    (hminus : d ≠ '-') : c ≠ d := by
  rintro rfl
  exact hc.elim hd hminus

theorem not_blank_of_numeral {c : Char} (hc : IsDigit c ∨ c = '-') : isBlank c = false := by
  have hspace : c ≠ ' ' := ne_of_numeral hc (by decide) (by decide)
  have htab : c ≠ '\t' := ne_of_numeral hc (by decide) (by decide)
  have hfeed : c ≠ '\n' := ne_of_numeral hc (by decide) (by decide)
  have hreturn : c ≠ '\r' := ne_of_numeral hc (by decide) (by decide)
  simp [isBlank, hspace, htab, hfeed, hreturn]

theorem scalar_of_numeral {c : Char} (hc : IsDigit c ∨ c = '-') (s : List Char) :
    scalar (c :: s) =
      match number (c :: s) with
      | .error f => .error f
      | .ok (n, rest) => .ok (.number n, rest) := by
  have hhead : (c.isDigit || c == '-' || c == '+' || c == '.') = true := by
    rcases hc with hc | rfl
    · simp [(isDigit_iff c).mpr hc]
    · rfl
  unfold scalar
  split
  · next heq => exact absurd (List.cons.inj heq).1 (ne_of_numeral hc (by decide) (by decide))
  · next heq => exact absurd (List.cons.inj heq).1 (ne_of_numeral hc (by decide) (by decide))
  · next heq => exact absurd (List.cons.inj heq).1 (ne_of_numeral hc (by decide) (by decide))
  · next heq => exact absurd (List.cons.inj heq).1 (ne_of_numeral hc (by decide) (by decide))
  · exact if_pos (by simpa using hhead)

theorem literal_append (l : Literal) (rest : List Char) :
    scalar (l.spelling ++ rest) = .ok (l.data, rest) := by
  cases l <;> simp [scalar, literal, Literal.spelling]

theorem scalar_of_string {pieces : List Piece} {s : List Char} (h : IsString pieces s)
    (hpaired : IsPaired pieces) (rest : List Char) :
    scalar (s ++ rest) = .ok (.text (.ofList (characters pieces)), rest) := by
  obtain ⟨hallowed⟩ := h
  simp [scalar, contents_append hpaired hallowed]

/-- Where no container opens, the depth does not count. -/
theorem value_scalar {c : Char} (hbracket : c ≠ '[') (hbrace : c ≠ '\x7b') (rounds depth : ℕ)
    (s : List Char) : value rounds depth (c :: s) = scalar (c :: s) := by
  cases depth <;> unfold value <;> split <;> simp_all

theorem takes_of_scalar {c : Char} {s : List Char} {d : Data} (hblank : isBlank c = false)
    (hbracket : c ≠ '[') (hbrace : c ≠ '\x7b')
    (h : ∀ rest, Stops rest → scalar (c :: s ++ rest) = .ok (d, rest)) (rounds depth : ℕ) :
    Takes (value rounds depth) (c :: s) d := by
  intro rest hrest
  refine ⟨rest, ?_, rfl⟩
  rw [List.cons_append, skipBlanks_cons hblank, value_scalar hbracket hbrace]
  exact h rest hrest

theorem value_ne_mark {c : Char} (hc : c = ']' ∨ c = '\x7d') (rounds depth : ℕ) (s : List Char)
    (x : Data × List Char) : value rounds depth (c :: s) ≠ .ok x := by
  rcases hc with rfl | rfl <;> rw [value_scalar (by decide) (by decide)] <;> simp [scalar]

theorem isSafe_array (rounds depth : ℕ) : Closing.array.IsSafe (value rounds depth) where
  stop := by decide
  not_blank := by decide
  not_comma := by decide
  not_item := value_ne_mark (.inl rfl) rounds depth

theorem isSafe_object (item : Reader Data) : Closing.object.IsSafe (member item) where
  stop := by decide
  not_blank := by decide
  not_comma := by decide
  not_item s x := by simp [member, Closing.object]

/-- The entry that a member stands for. -/
def entry (m : List Piece × Phrase) : Key × Data := (.text (.ofList (characters m.1)), m.2.data)

theorem member_takes {IsItem : Phrase → List Char → Prop} {item : Reader Data}
    {m : List Piece × Phrase} {s : List Char} (h : IsMember IsItem m s) (hpaired : IsPaired m.1)
    (hitem : ∀ s', s'.length ≤ s.length → IsItem m.2 s' → Takes item s' m.2.data) :
    Takes (member item) s (entry m) := by
  obtain ⟨⟨hallowed⟩, hcolon, hvalue⟩ := h
  next key x colon t =>
  intro rest hrest
  obtain ⟨next, hmark, hnext⟩ := skipBlanks_mark hcolon (by decide) (t ++ rest)
  obtain ⟨rest', hread, hskip⟩ := hitem t (by simp; omega) hvalue rest hrest
  refine ⟨rest', ?_, hskip⟩
  have hkey := contents_append hpaired hallowed (colon ++ (t ++ rest))
  simp only [List.cons_append, List.append_assoc, List.nil_append]
  rw [skipBlanks_cons (by decide)]
  simp [member, hkey, hmark, hnext, hread, entry]

theorem dataOfItems_eq_map (items : List Phrase) :
    Phrase.dataOfItems items = items.map Phrase.data := by
  induction items with
  | nil => rfl
  | cons t items ih => simp [Phrase.dataOfItems, ih]

theorem dataOfMembers_eq_map (members : List (List Piece × Phrase)) :
    Phrase.dataOfMembers members = members.map entry := by
  induction members with
  | nil => rfl
  | cons m members ih => simp [Phrase.dataOfMembers, entry, ih]

/-- The numeral has a number, exact or rounded. -/
def HasNumber (n : Numeral) : Prop := ∃ x, n.number? = some x

theorem value_bracket {start : List Char} (hstart : IsMark '[' start) (rounds depth : ℕ)
    (s : List Char) : ∃ s', skipBlanks s' = skipBlanks s ∧
      value rounds (depth + 1) (skipBlanks (start ++ s)) = array (value rounds depth) rounds s' := by
  obtain ⟨s', hmark, hskip⟩ := skipBlanks_mark hstart (by decide) s
  exact ⟨s', hskip, by rw [hmark, value]⟩

theorem value_brace {start : List Char} (hstart : IsMark '\x7b' start) (rounds depth : ℕ)
    (s : List Char) : ∃ s', skipBlanks s' = skipBlanks s ∧
      value rounds (depth + 1) (skipBlanks (start ++ s)) = object (value rounds depth) rounds s' := by
  obtain ⟨s', hmark, hskip⟩ := skipBlanks_mark hstart (by decide) s
  exact ⟨s', hskip, by rw [hmark, value]⟩

theorem items_congr {s s' : List Char} (h : skipBlanks s' = skipBlanks s) (rounds : ℕ) :
    items closing item rounds s' = items closing item rounds s := by
  rw [items, h, items]

theorem array_takes {items : List Phrase} {start s close : List Char} {rounds depth : ℕ}
    (hstart : IsMark '[' start) (hitems : IsSeparated IsValue items s) (hclose : IsMark ']' close)
    (hitem : ∀ t ∈ items, ∀ s', s'.length ≤ s.length → IsValue t s' →
      Takes (value rounds depth) s' t.data)
    (hrounds : items.length ≤ rounds) :
    TakesAlways (value rounds (depth + 1)) (start ++ s ++ close) (Phrase.array items).data := by
  intro rest
  obtain ⟨s', hskip, hvalue⟩ := value_bracket hstart rounds depth (s ++ (close ++ rest))
  obtain ⟨after, hmark, hafter⟩ := skipBlanks_mark hclose (by decide) rest
  have hread := items_append (isSafe_array rounds depth) hitems hitem hmark hrounds
  have htext : start ++ s ++ close ++ rest = start ++ (s ++ (close ++ rest)) := by simp
  refine ⟨after, ?_, hafter⟩
  rw [htext, hvalue, array, items_congr hskip, hread]
  simp only [Phrase.data, dataOfItems_eq_map]

theorem object_takes {members : List (List Piece × Phrase)} {start s close : List Char}
    {rounds depth : ℕ} (hstart : IsMark '\x7b' start)
    (hmembers : IsSeparated (IsMember IsValue) members s) (hclose : IsMark '\x7d' close)
    (hitem : ∀ m ∈ members, ∀ s', s'.length ≤ s.length → IsMember IsValue m s' →
      Takes (member (value rounds depth)) s' (entry m))
    (hrounds : members.length ≤ rounds) :
    TakesAlways (value rounds (depth + 1)) (start ++ s ++ close) (Phrase.object members).data := by
  intro rest
  obtain ⟨s', hskip, hvalue⟩ := value_brace hstart rounds depth (s ++ (close ++ rest))
  obtain ⟨after, hmark, hafter⟩ := skipBlanks_mark hclose (by decide) rest
  have hread := items_append (isSafe_object (value rounds depth)) hmembers hitem hmark hrounds
  have htext : start ++ s ++ close ++ rest = start ++ (s ++ (close ++ rest)) := by simp
  refine ⟨after, ?_, hafter⟩
  rw [htext, hvalue, object, items_congr hskip, hread]
  simp only [Phrase.data, dataOfMembers_eq_map]

theorem emptyArray_takes {start close : List Char} (rounds depth : ℕ)
    (hstart : IsMark '[' start) (hclose : IsMark ']' close) :
    TakesAlways (value rounds (depth + 1)) (start ++ close) (Phrase.array []).data := by
  intro rest
  obtain ⟨s', hskip, hvalue⟩ := value_bracket hstart rounds depth (close ++ rest)
  obtain ⟨after, hmark, hafter⟩ := skipBlanks_mark hclose (by decide) rest
  refine ⟨after, ?_, hafter⟩
  rw [List.append_assoc, hvalue, array, items_of_empty rounds (hskip.trans hmark)]
  rfl

theorem emptyObject_takes {start close : List Char} (rounds depth : ℕ)
    (hstart : IsMark '\x7b' start) (hclose : IsMark '\x7d' close) :
    TakesAlways (value rounds (depth + 1)) (start ++ close) (Phrase.object []).data := by
  intro rest
  obtain ⟨s', hskip, hvalue⟩ := value_brace hstart rounds depth (close ++ rest)
  obtain ⟨after, hmark, hafter⟩ := skipBlanks_mark hclose (by decide) rest
  refine ⟨after, ?_, hafter⟩
  rw [List.append_assoc, hvalue, object, items_of_empty rounds (hskip.trans hmark)]
  rfl

theorem length_pos_of_mark {mark : Char} {s : List Char} (h : IsMark mark s) : 1 ≤ s.length := by
  obtain ⟨-, -⟩ := h
  simp only [List.length_append, List.length_cons]
  omega

theorem literal_takes {l : Literal} (rounds depth : ℕ) :
    Takes (value rounds depth) l.spelling l.data := by
  have hread := fun rest (_ : Stops rest) => literal_append l rest
  cases l <;> exact takes_of_scalar (by decide) (by decide) (by decide) hread _ _

theorem numeral_takes {n : Numeral} {x : Number} {s : List Char} (h : IsNumeral n s)
    (hx : n.number? = some x) (rounds depth : ℕ) :
    Takes (value rounds depth) s (Phrase.numeral n).data := by
  obtain ⟨c, s, rfl, hc⟩ := head_of_isNumeral h
  apply takes_of_scalar (not_blank_of_numeral hc) (ne_of_numeral hc (by decide) (by decide))
    (ne_of_numeral hc (by decide) (by decide))
  intro rest hrest
  have hread := number_append h hx hrest
  rw [List.cons_append] at hread ⊢
  rw [scalar_of_numeral hc, hread]
  simp [Phrase.data, hx]

theorem string_takes {pieces : List Piece} {s : List Char} (h : IsString pieces s)
    (hpaired : IsPaired pieces) (rounds depth : ℕ) :
    Takes (value rounds depth) s (Phrase.string pieces).data := by
  have hread := fun rest (_ : Stops rest) => scalar_of_string h hpaired rest
  obtain ⟨-⟩ := h
  exact takes_of_scalar (by decide) (by decide) (by decide) hread _ _

/-- An array that fits is taken whatever follows it. -/
theorem arrayPhrase_takes {rounds depth : ℕ} {items : List Phrase} {s : List Char}
    (h : IsValue (.array items) s) (hrounds : s.length ≤ rounds)
    (hitem : ∀ t ∈ items, ∀ s', s'.length ≤ rounds → IsValue t s' →
      Takes (value rounds depth) s' t.data) :
    TakesAlways (value rounds (depth + 1)) s (Phrase.array items).data := by
  cases h with
  | emptyArray hstart hclose => exact emptyArray_takes rounds depth hstart hclose
  | array hstart hitems hclose =>
    have hlength := length_le_of_separated hitems
    have hstart' := length_pos_of_mark hstart
    simp only [List.length_append] at hrounds
    exact array_takes hstart hitems hclose
      (fun t ht s' hs' hvalue => hitem t ht s' (by omega) hvalue) (by omega)

/-- An object that fits is taken whatever follows it. -/
theorem objectPhrase_takes {rounds depth : ℕ} {members : List (List Piece × Phrase)}
    {s : List Char} (h : IsValue (.object members) s) (hrounds : s.length ≤ rounds)
    (hkeys : ∀ m ∈ members, IsPaired m.1)
    (hitem : ∀ m ∈ members, ∀ s', s'.length ≤ rounds → IsValue m.2 s' →
      Takes (value rounds depth) s' m.2.data) :
    TakesAlways (value rounds (depth + 1)) s (Phrase.object members).data := by
  cases h with
  | emptyObject hstart hclose => exact emptyObject_takes rounds depth hstart hclose
  | object hstart hmembers hclose =>
    have hlength := length_le_of_separated hmembers
    have hstart' := length_pos_of_mark hstart
    simp only [List.length_append] at hrounds
    refine object_takes hstart hmembers hclose (fun m hm s' hs' hmember => ?_) (by omega)
    exact member_takes hmember (hkeys m hm)
      fun s'' hs'' hvalue => hitem m hm s'' (by omega) hvalue

/-- Every phrase that fits is taken by the reader of values, given a round for each character. -/
theorem value_takes {rounds depth : ℕ} {t : Phrase} {s : List Char}
    (hfits : t.Fits IsPaired HasNumber depth) (h : IsValue t s) (hrounds : s.length ≤ rounds) :
    Takes (value rounds depth) s t.data := by
  induction hfits generalizing s with
  | literal l =>
    cases h
    exact literal_takes _ _
  | numeral hnumber =>
    obtain ⟨x, hx⟩ := hnumber
    cases h with
    | numeral hn => exact numeral_takes hn hx _ _
  | string hpaired =>
    cases h with
    | string hs => exact string_takes hs hpaired _ _
  | array _ ih =>
    exact (arrayPhrase_takes h hrounds fun t ht s' hs' hvalue => ih t ht hvalue hs').takes
  | object hkeys _ ih =>
    exact (objectPhrase_takes h hrounds hkeys fun m hm s' hs' hvalue => ih m hm hvalue hs').takes

end JsonAssert.Json
