import Mathlib
import JsonAssert.Command.Run

/-! Unified line ends: a text and its unified form have the same characters where no line ends. -/
namespace JsonAssert.Newline

/-- Neither of the two characters that end lines. -/
def IsInner (c : Char) : Prop := c ≠ '\r' ∧ c ≠ '\n'

instance (c : Char) : Decidable (IsInner c) := inferInstanceAs (Decidable (_ ∧ _))

theorem eq_of_not_isInner {c : Char} (h : ¬ IsInner c) : c = '\r' ∨ c = '\n' := by
  unfold IsInner at h
  tauto

theorem unify_cons {c : Char} (hc : c ≠ '\r') (s : List Char) : unify (c :: s) = c :: unify s := by
  rw [unify] <;> simp [hc]

theorem exists_unify_return (s : List Char) : ∃ s', unify ('\r' :: s) = '\n' :: s' := by
  cases s with
  | nil => exact ⟨[], rfl⟩
  | cons c s =>
    by_cases hc : c = '\n'
    · exact ⟨unify s, by rw [hc, unify]⟩
    · exact ⟨unify (c :: s), by rw [unify]; simp [hc]⟩

/-- A text and its unified form are both empty, or start with one character that ends no line, or
each start with a character that does. -/
theorem unify_cases (s : List Char) :
    (s = [] ∧ unify s = []) ∨
      (∃ c s', IsInner c ∧ s = c :: s' ∧ unify s = c :: unify s') ∨
      ∃ c d s' t, ¬ IsInner c ∧ ¬ IsInner d ∧ s = c :: s' ∧ unify s = d :: t := by
  cases s with
  | nil => exact .inl ⟨rfl, rfl⟩
  | cons c s =>
    by_cases hreturn : c = '\r'
    · obtain ⟨t, ht⟩ := exists_unify_return s
      exact .inr (.inr ⟨c, '\n', s, t, by simp [IsInner, hreturn], by simp [IsInner], rfl,
        by rw [hreturn, ht]⟩)
    · by_cases hfeed : c = '\n'
      · exact .inr (.inr ⟨c, c, s, unify s, by simp [IsInner, hfeed], by simp [IsInner, hfeed],
          rfl, unify_cons hreturn s⟩)
      · exact .inr (.inl ⟨c, s, ⟨hreturn, hfeed⟩, rfl, unify_cons hreturn s⟩)

theorem length_unify_le (s : List Char) : (unify s).length ≤ s.length := by
  fun_induction unify s <;> simp only [List.length_cons, List.length_nil] at * <;> omega

theorem unify_eq_nil_iff (s : List Char) : unify s = [] ↔ s = [] := by
  rcases unify_cases s with ⟨rfl, hs⟩ | ⟨c, s', -, rfl, hs⟩ | ⟨c, d, s', t, -, -, rfl, hs⟩ <;>
    simp [hs]

/-- Characters that end no line are where they were. -/
theorem unify_append {a : List Char} (ha : ∀ c ∈ a, IsInner c) (s : List Char) :
    unify (a ++ s) = a ++ unify s := by
  induction a with
  | nil => rfl
  | cons c a ih =>
    rw [List.cons_append, unify_cons (ha c List.mem_cons_self).1,
      ih fun d hd => ha d (List.mem_cons_of_mem c hd), List.cons_append]

theorem eq_append_of_unify {a s t : List Char} (ha : ∀ c ∈ a, IsInner c) (h : unify s = a ++ t) :
    ∃ s', s = a ++ s' := by
  induction a generalizing s with
  | nil => exact ⟨s, rfl⟩
  | cons c a ih =>
    have hc := ha c List.mem_cons_self
    rcases unify_cases s with ⟨-, hs⟩ | ⟨d, s', -, rfl, hs⟩ | ⟨d, e, s', t', -, he, rfl, hs⟩
    · simp [hs] at h
    · obtain ⟨rfl, hmore⟩ : d = c ∧ unify s' = a ++ t := by simpa [hs] using h
      obtain ⟨s'', rfl⟩ := ih (fun e he => ha e (List.mem_cons_of_mem d he)) hmore
      exact ⟨s'', rfl⟩
    · obtain ⟨rfl, -⟩ : e = c ∧ t' = a ++ t := by simpa [hs] using h
      exact absurd hc he

theorem eq_cons_of_unify {c : Char} {s : List Char} (hc : IsInner c) :
    (∃ t, unify s = c :: t) → ∃ t, s = c :: t := by
  rintro ⟨t, ht⟩
  exact eq_append_of_unify (a := [c]) (by simpa using hc) ht

end JsonAssert.Newline
