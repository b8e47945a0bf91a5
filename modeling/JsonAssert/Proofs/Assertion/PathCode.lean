import JsonAssert.Proofs.Assertion.Reading

/-! Expressions as a code of key paths. The subscript of a key, of whatever kind and sign, can be
told off the front of any text, so one expression begins another exactly when its path does. -/
namespace JsonAssert
open Grammar

/-! Prefix codes -/

/-- A code whose words can be told off the front of any text. -/
structure IsPrefixCode {α β : Type} (word : α → List β) : Prop where
  ne_nil (a : α) : word a ≠ []
  append_inj {a b : α} {s t : List β} : word a ++ s = word b ++ t → a = b ∧ s = t

/-- Texts of such words begin one another as the sequences of what they stand for do. -/
theorem IsPrefixCode.flatMap_isPrefix_iff {α β : Type} {word : α → List β} (h : IsPrefixCode word)
    (xs ys : List α) : xs.flatMap word <+: ys.flatMap word ↔ xs <+: ys := by
  induction xs generalizing ys with
  | nil => simp
  | cons x xs ih =>
    cases ys with
    | nil => simp [h.ne_nil x]
    | cons y ys =>
      rw [List.cons_prefix_cons, ← ih, List.flatMap_cons, List.flatMap_cons]
      constructor
      -- Whatever is left of the longer text goes along with the words behind the first.
      · rintro ⟨rest, hrest⟩
        rw [List.append_assoc] at hrest
        obtain ⟨rfl, hmore⟩ := h.append_inj hrest
        exact ⟨rfl, rest, hmore⟩
      · rintro ⟨rfl, rest, hmore⟩
        exact ⟨rest, by rw [List.append_assoc, hmore]⟩

/-! Words -/

/-- A quoted text ends where its own closing quote is, whatever follows. -/
theorem Quoted.encode_append_inj {a b s t : List Char} (h : encode a ++ s = encode b ++ t) :
    a = b ∧ s = t := by
  rw [Script.encode_append, Script.encode_append] at h
  have hread := Script.contents_append a s
  rw [(List.cons.inj h).2, Script.contents_append] at hread
  have hpair := Prod.mk.inj (Option.some.inj hread)
  exact ⟨hpair.1.symm, hpair.2.symm⟩

namespace Key

/-- What stands between the brackets of a subscript. -/
def word : Key → List Char
  | .text s => Quoted.encode s.toList
  | .int n => (toString n).toList
  | .bool b => if b then "True".toList else "False".toList

theorem toList_subscript (k : Key) : k.subscript.toList = '[' :: (k.word ++ [']']) := by
  cases k with
  | text s => exact Script.toList_subscript_text s
  | int n => simp [subscript, word]
  | bool b => cases b <;> rfl

/-- A key whose word is not quoted. -/
def IsBare (k : Key) : Prop := ∀ s, k ≠ .text s

theorem digit_or_minus_of_mem {n : ℤ} {c : Char} (hc : c ∈ (toString n).toList) :
    IsDigit c ∨ c = '-' := by
  have hdigit (m : ℕ) (h : c ∈ m.repr.toList) : IsDigit c := by
    rw [Nat.toList_repr] at h
    exact Binary64.isDigit_of_mem_toDigits c h
  cases n with
  | ofNat m => exact .inl (hdigit m hc)
  | negSucc m =>
    have hneg : (toString (Int.negSucc m)).toList = '-' :: (m + 1).repr.toList := by
      rw [Int.toString_eq_repr, Int.repr, String.toList_append]
      rfl
    rw [hneg] at hc
    rcases List.mem_cons.mp hc with rfl | hmem
    · exact .inr rfl
    · exact .inl (hdigit _ hmem)

theorem not_mem_toString {c : Char} (hdigit : ¬ IsDigit c) (hminus : c ≠ '-') (n : ℤ) :
    c ∉ (toString n).toList := by
  intro hc
  rcases digit_or_minus_of_mem hc with h | h
  · exact hdigit h
  · exact hminus h

theorem IsBare.not_mem {k : Key} (hk : k.IsBare) : '"' ∉ k.word ∧ ']' ∉ k.word := by
  cases k with
  | text s => exact absurd rfl (hk s)
  | int n => exact ⟨not_mem_toString (by decide) (by decide) n,
      not_mem_toString (by decide) (by decide) n⟩
  | bool b => cases b <;> decide

theorem word_int_ne_bool (n : ℤ) (b : Bool) : (int n).word ≠ (bool b).word := by
  intro h
  have hmem : 'e' ∈ (bool b).word := by cases b <;> decide
  rw [← h] at hmem
  exact not_mem_toString (by decide) (by decide) n hmem

/-- Numbers of either sign and the truth values are all written differently. -/
theorem IsBare.word_inj {k l : Key} (hk : k.IsBare) (hl : l.IsBare) (h : k.word = l.word) :
    k = l := by
  cases k with
  | text s => exact absurd rfl (hk s)
  | int m =>
    cases l with
    | text s => exact absurd rfl (hl s)
    | int n => exact congrArg int (Int.repr_inj.mp (String.toList_inj.mp h))
    | bool b => exact absurd h (word_int_ne_bool m b)
  | bool b =>
    cases l with
    | text s => exact absurd rfl (hl s)
    | int n => exact absurd h.symm (word_int_ne_bool n b)
    | bool c =>
      revert h
      cases b <;> cases c <;> decide

theorem IsBare.append_ne_encode {k : Key} (hk : k.IsBare) (s text t : List Char) :
    k.word ++ ']' :: s ≠ Quoted.encode text ++ t := by
  intro h
  have hnot := hk.not_mem.1
  rw [Script.encode_append] at h
  cases hword : k.word with
  | nil =>
    rw [hword, List.nil_append] at h
    exact absurd (List.cons.inj h).1 (by decide)
  | cons c word =>
    rw [hword, List.cons_append] at h
    rw [hword, (List.cons.inj h).1] at hnot
    exact hnot List.mem_cons_self

/-- A bare word ends at the first closing bracket. -/
theorem IsBare.append_inj {k l : Key} (hk : k.IsBare) (hl : l.IsBare) {s t : List Char}
    (h : k.word ++ ']' :: s = l.word ++ ']' :: t) : k = l ∧ s = t := by
  have hspan {k : Key} (hk : k.IsBare) (rest : List Char) :
      (k.word ++ ']' :: rest).takeWhile (· != ']') = k.word ∧
        (k.word ++ ']' :: rest).dropWhile (· != ']') = ']' :: rest := by
    apply Json.span_append
    · intro c hc
      exact bne_iff_ne.mpr fun heq => hk.not_mem.2 (heq ▸ hc)
    · simp
  obtain ⟨hword, hrest⟩ := hspan hk s
  rw [h, (hspan hl t).1] at hword
  rw [h, (hspan hl t).2] at hrest
  exact ⟨hk.word_inj hl hword.symm, (List.cons.inj hrest).2.symm⟩

theorem text_or_isBare (k : Key) : (∃ text, k = .text text) ∨ k.IsBare := by
  cases k with
  | text s => exact .inl ⟨s, rfl⟩
  | _ => exact .inr fun _ => Key.noConfusion

/-- A word of either kind can be told off the front of a text. The first character tells which kind
it is, and this where it ends. -/
theorem word_append_inj {k l : Key} {s t : List Char}
    (h : k.word ++ ']' :: s = l.word ++ ']' :: t) : k = l ∧ s = t := by
  rcases text_or_isBare k with ⟨a, rfl⟩ | hk
  · rcases text_or_isBare l with ⟨b, rfl⟩ | hl
    · obtain ⟨hchars, hrest⟩ := Quoted.encode_append_inj h
      exact ⟨congrArg text (String.toList_inj.mp hchars), (List.cons.inj hrest).2⟩
    · exact absurd h.symm (hl.append_ne_encode _ _ _)
  · rcases text_or_isBare l with ⟨b, rfl⟩ | hl
    · exact absurd h (hk.append_ne_encode _ _ _)
    · exact hk.append_inj hl h

theorem isPrefixCode_subscript : IsPrefixCode fun k : Key => k.subscript.toList where
  ne_nil k := by simp [toList_subscript]
  append_inj {k l s t} h := by
    apply word_append_inj
    simpa [toList_subscript] using h

end Key

/-- The expression for one path begins the expression for another exactly when the path begins the
other, whatever their keys are and whatever the root is. So no two paths have one expression. -/
theorem path_expressions_prefix_code (root : String) (p q : List Key) :
    ((p.foldl subscripted root).toList <+: (q.foldl subscripted root).toList ↔ p <+: q) ∧
      (p.foldl subscripted root = q.foldl subscripted root ↔ p = q) := by
  have hbegins (p q : List Key) :
      (p.foldl subscripted root).toList <+: (q.foldl subscripted root).toList ↔ p <+: q := by
    rw [Script.toList_foldl_subscripted, Script.toList_foldl_subscripted,
      List.prefix_append_right_inj, Key.isPrefixCode_subscript.flatMap_isPrefix_iff]
  refine ⟨hbegins p q, ?_, congrArg _⟩
  intro heq
  have hpq := (hbegins p q).mp (by rw [heq])
  have hqp := (hbegins q p).mp (by rw [heq])
  exact hpq.eq_of_length_le hqp.length_le

end JsonAssert
