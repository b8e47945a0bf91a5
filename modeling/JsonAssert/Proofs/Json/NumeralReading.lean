import Mathlib
import JsonAssert.Proofs.Json.Grammar

/-! The reader of numerals takes exactly the numerals of the grammar, and of several at the front of
a text the longest. -/
namespace JsonAssert.Json
open Grammar

theorem isDigit_iff (c : Char) : c.isDigit = true ↔ IsDigit c := by
  simp [Char.isDigit, IsDigit, Char.le_def]

/-- What cannot prolong a numeral. -/
def Stops (s : List Char) : Prop :=
  ∀ c, s.head? = some c → ¬ IsDigit c ∧ c ≠ '.' ∧ ¬ IsExponentMark c

/-- A run of characters ends where the first other one stands. -/
theorem span_append {p : Char → Bool} {s rest : List Char} (hs : ∀ c ∈ s, p c = true)
    (hrest : ∀ c, rest.head? = some c → p c = false) :
    (s ++ rest).takeWhile p = s ∧ (s ++ rest).dropWhile p = rest := by
  rw [List.takeWhile_append_of_pos hs, List.dropWhile_append_of_pos hs]
  cases rest with
  | nil => exact ⟨List.append_nil s, rfl⟩
  | cons c rest =>
    have hc : ¬ p c = true := by simp [hrest c rfl]
    rw [List.takeWhile_cons_of_neg hc, List.dropWhile_cons_of_neg hc, List.append_nil]
    exact ⟨rfl, rfl⟩

theorem digits_append {ds rest : List Char} (hds : ∀ c ∈ ds, IsDigit c)
    (hrest : ∀ c, rest.head? = some c → ¬ IsDigit c) : digits (ds ++ rest) = (ds, rest) := by
  have hall : ∀ c ∈ ds, c.isDigit = true := by
    intro c hc
    exact (isDigit_iff c).mpr (hds c hc)
  have hstop : ∀ c, rest.head? = some c → c.isDigit = false := by
    intro c hc
    rw [Bool.eq_false_iff, ne_eq, isDigit_iff]
    exact hrest c hc
  obtain ⟨htake, hdrop⟩ := span_append hall hstop
  rw [digits, htake, hdrop]

theorem digits_eq {s ds rest : List Char} (h : digits s = (ds, rest)) :
    s = ds ++ rest ∧ ∀ c ∈ ds, IsDigit c := by
  obtain ⟨rfl, rfl⟩ : s.takeWhile Char.isDigit = ds ∧ s.dropWhile Char.isDigit = rest := by
    simpa [digits] using h
  refine ⟨List.takeWhile_append_dropWhile.symm, ?_⟩
  intro c hc
  exact (isDigit_iff c).mp (List.mem_takeWhile_imp hc)

/-! Parts -/

theorem minus_append {negative : Bool} {sign rest : List Char} (h : IsSign negative sign)
    (hrest : rest.head? ≠ some '-') : minus (sign ++ rest) = (negative, rest) := by
  cases h with
  | minus => rfl
  | none =>
    rw [List.nil_append]
    unfold minus
    split
    · simp at hrest
    · rfl

theorem minus_eq {s rest : List Char} {negative : Bool} (h : minus s = (negative, rest)) :
    ∃ sign, s = sign ++ rest ∧ IsSign negative sign := by
  unfold minus at h
  split at h
  · obtain ⟨rfl, rfl⟩ : _ ∧ _ := by simpa using h
    exact ⟨['-'], rfl, .minus⟩
  · obtain ⟨rfl, rfl⟩ : _ ∧ _ := by simpa using h
    exact ⟨[], rfl, .none⟩

theorem whole_append {w rest : List Char} (h : IsWhole w)
    (hrest : ∀ c, rest.head? = some c → ¬ IsDigit c) : whole (w ++ rest) = .ok (w, rest) := by
  obtain ⟨⟨hne, hds⟩, hzero⟩ := h
  unfold whole
  rw [digits_append hds hrest]
  split
  · next heq => simp_all
  · next heq =>
    obtain ⟨rfl, -⟩ : _ ∧ _ := by simpa using heq
    simp at hzero
  · rfl

theorem whole_eq {s w rest : List Char} (h : whole s = .ok (w, rest)) :
    s = w ++ rest ∧ IsWhole w := by
  unfold whole at h
  split at h
  · simp at h
  · simp at h
  · next hempty hzero =>
    have hdigits : digits s = (w, rest) := by simpa using h
    obtain ⟨hs, hds⟩ := digits_eq hdigits
    refine ⟨hs, ⟨?_, hds⟩, ?_⟩
    · rintro rfl
      exact hempty rest hdigits
    · intro hhead
      cases w with
      | nil => simp at hhead
      | cons c w =>
        obtain rfl : c = '0' := by simpa using hhead
        cases w with
        | nil => rfl
        | cons d w => exact absurd hdigits (hzero d w rest)

theorem fraction_append {f : Option (List Char)} {text rest : List Char} (h : IsFraction f text)
    (hrest : ∀ c, rest.head? = some c → ¬ IsDigit c ∧ c ≠ '.') :
    fraction (text ++ rest) = .ok (f, rest) := by
  cases h with
  | none =>
    rw [List.nil_append]
    unfold fraction
    split
    · exact absurd rfl (hrest '.' rfl).2
    · rfl
  | some hdigits =>
    obtain ⟨hne, hds⟩ := hdigits
    rw [List.cons_append]
    simp only [fraction, digits_append hds fun c hc => (hrest c hc).1]

theorem fraction_eq {s rest : List Char} {f : Option (List Char)}
    (h : fraction s = .ok (f, rest)) : ∃ text, s = text ++ rest ∧ IsFraction f text := by
  unfold fraction at h
  split at h
  · next s =>
    split at h
    · simp at h
    · next found rest' hempty heq =>
      obtain ⟨rfl, rfl⟩ : _ ∧ _ := by simpa using h
      obtain ⟨rfl, hds⟩ := digits_eq heq
      refine ⟨'.' :: found, rfl, .some ⟨?_, hds⟩⟩
      rintro rfl
      exact hempty rfl
  · obtain ⟨rfl, rfl⟩ : _ ∧ _ := by simpa using h
    exact ⟨[], rfl, .none⟩

theorem exponentDigits_of_sign {s ds rest : List Char} {negative : Bool}
    (hsign : sign s = (negative, ds ++ rest)) (hdigits : IsDigits ds)
    (hrest : ∀ c, rest.head? = some c → ¬ IsDigit c) :
    exponentDigits s = .ok (some (negative, ds), rest) := by
  obtain ⟨hne, hds⟩ := hdigits
  simp only [exponentDigits, hsign, digits_append hds hrest]

theorem sign_of_digit {c : Char} {s : List Char} (hc : IsDigit c) :
    sign (c :: s) = (false, c :: s) := by
  unfold sign
  split
  · next heq =>
    obtain ⟨rfl, -⟩ : _ ∧ _ := by simpa using heq
    exact absurd hc (by simp [IsDigit])
  · next heq =>
    obtain ⟨rfl, -⟩ : _ ∧ _ := by simpa using heq
    exact absurd hc (by simp [IsDigit])
  · rfl

theorem exponent_mark {e : Char} (he : IsExponentMark e) (s : List Char) :
    exponent (e :: s) = exponentDigits s := by
  rcases he with rfl | rfl <;> rfl

theorem exponent_append {e : Option (Bool × List Char)} {text rest : List Char}
    (h : IsExponent e text)
    (hrest : ∀ c, rest.head? = some c → ¬ IsDigit c ∧ ¬ IsExponentMark c) :
    exponent (text ++ rest) = .ok (e, rest) := by
  have hstop : ∀ c, rest.head? = some c → ¬ IsDigit c := fun c hc => (hrest c hc).1
  cases h with
  | none =>
    rw [List.nil_append]
    unfold exponent
    split
    · exact absurd (.inl rfl) (hrest 'e' rfl).2
    · exact absurd (.inr rfl) (hrest 'E' rfl).2
    · rfl
  | @bare e ds hmark hdigits =>
    rw [List.cons_append, exponent_mark hmark]
    refine exponentDigits_of_sign ?_ hdigits hstop
    cases ds with
    | nil => exact absurd rfl hdigits.1
    | cons c ds => exact sign_of_digit (hdigits.2 c List.mem_cons_self)
  | plus hmark hdigits =>
    rw [List.cons_append, exponent_mark hmark]
    exact exponentDigits_of_sign rfl hdigits hstop
  | minus hmark hdigits =>
    rw [List.cons_append, exponent_mark hmark]
    exact exponentDigits_of_sign rfl hdigits hstop

theorem exponentDigits_eq {s rest : List Char} {e : Option (Bool × List Char)}
    (h : exponentDigits s = .ok (e, rest)) :
    ∃ negative ds, e = some (negative, ds) ∧ sign s = (negative, ds ++ rest) ∧ IsDigits ds := by
  unfold exponentDigits at h
  dsimp only at h
  split at h
  · simp at h
  · next found rest' hempty heq =>
    obtain ⟨rfl, rfl⟩ : _ ∧ _ := by simpa using h
    obtain ⟨hs, hds⟩ := digits_eq heq
    refine ⟨_, found, rfl, by rw [← hs], ?_, hds⟩
    rintro rfl
    exact hempty rfl

theorem sign_eq {s rest : List Char} {negative : Bool} (h : sign s = (negative, rest)) :
    (negative = true ∧ s = '-' :: rest) ∨ (negative = false ∧ (s = '+' :: rest ∨ s = rest)) := by
  unfold sign at h
  split at h
  · obtain ⟨rfl, rfl⟩ : _ ∧ _ := by simpa using h
    exact .inl ⟨rfl, rfl⟩
  · obtain ⟨rfl, rfl⟩ : _ ∧ _ := by simpa using h
    exact .inr ⟨rfl, .inl rfl⟩
  · obtain ⟨rfl, rfl⟩ : _ ∧ _ := by simpa using h
    exact .inr ⟨rfl, .inr rfl⟩

theorem exponentDigits_spells {mark : Char} {s rest : List Char} {e : Option (Bool × List Char)}
    (hmark : IsExponentMark mark) (h : exponentDigits s = .ok (e, rest)) :
    ∃ text, mark :: s = text ++ rest ∧ IsExponent e text := by
  obtain ⟨negative, ds, rfl, hsign, hdigits⟩ := exponentDigits_eq h
  rcases sign_eq hsign with ⟨rfl, rfl⟩ | ⟨rfl, rfl | rfl⟩
  · exact ⟨mark :: '-' :: ds, rfl, .minus hmark hdigits⟩
  · exact ⟨mark :: '+' :: ds, rfl, .plus hmark hdigits⟩
  · exact ⟨mark :: ds, rfl, .bare hmark hdigits⟩

theorem exponent_eq {s rest : List Char} {e : Option (Bool × List Char)}
    (h : exponent s = .ok (e, rest)) : ∃ text, s = text ++ rest ∧ IsExponent e text := by
  unfold exponent at h
  split at h
  · exact exponentDigits_spells (.inl rfl) h
  · exact exponentDigits_spells (.inr rfl) h
  · obtain ⟨rfl, rfl⟩ : _ ∧ _ := by simpa using h
    exact ⟨[], rfl, .none⟩

/-! Numerals -/

theorem head_of_exponent {e : Option (Bool × List Char)} {text rest : List Char}
    (h : IsExponent e text) (hrest : Stops rest) {c : Char} (hc : (text ++ rest).head? = some c) :
    ¬ IsDigit c ∧ c ≠ '.' := by
  have hmarked : ∀ m, IsExponentMark m → ¬ IsDigit m ∧ m ≠ '.' := by
    rintro m (rfl | rfl) <;> exact ⟨by simp [IsDigit], by decide⟩
  cases h with
  | none => exact ⟨(hrest c hc).1, (hrest c hc).2.1⟩
  | bare hmark _ =>
    obtain rfl : _ = c := by simpa using hc
    exact hmarked _ hmark
  | plus hmark _ =>
    obtain rfl : _ = c := by simpa using hc
    exact hmarked _ hmark
  | minus hmark _ =>
    obtain rfl : _ = c := by simpa using hc
    exact hmarked _ hmark

theorem head_of_fraction {f : Option (List Char)} {text rest : List Char} (h : IsFraction f text)
    (hrest : ∀ c, rest.head? = some c → ¬ IsDigit c) {c : Char}
    (hc : (text ++ rest).head? = some c) : ¬ IsDigit c := by
  cases h with
  | none => exact hrest c hc
  | some _ =>
    obtain rfl : '.' = c := by simpa using hc
    simp [IsDigit]

theorem head_ne_minus {w : List Char} (h : IsWhole w) (rest : List Char) :
    (w ++ rest).head? ≠ some '-' := by
  obtain ⟨⟨hne, hds⟩, -⟩ := h
  cases w with
  | nil => exact absurd rfl hne
  | cons c w =>
    intro hc
    obtain rfl : c = '-' := by simpa using hc
    exact absurd (hds '-' List.mem_cons_self) (by simp [IsDigit])

theorem head_of_isNumeral {n : Numeral} {s : List Char} (h : IsNumeral n s) :
    ∃ c s', s = c :: s' ∧ (IsDigit c ∨ c = '-') := by
  obtain ⟨hsign, ⟨⟨hne, hdigits⟩, -⟩, -, -⟩ := h
  next whole _ _ _ _ _ =>
  cases hsign with
  | minus => exact ⟨'-', _, rfl, .inr rfl⟩
  | none =>
    cases whole with
    | nil => exact absurd rfl hne
    | cons c whole => exact ⟨c, _, rfl, .inl (hdigits c List.mem_cons_self)⟩

theorem numeral_append {n : Numeral} {s rest : List Char} (h : IsNumeral n s)
    (hrest : Stops rest) : numeral (s ++ rest) = .ok (n, rest) := by
  cases h with
  | @mk _ whole sign fractionText exponentText _ _ hsign hwhole hfraction hexponent =>
    have hafter := fun c => head_of_exponent hexponent hrest (c := c)
    have hbefore := fun c => head_of_fraction hfraction (fun c hc => (hafter c hc).1) (c := c)
    have htext : sign ++ whole ++ fractionText ++ exponentText ++ rest =
        sign ++ (whole ++ (fractionText ++ (exponentText ++ rest))) := by simp
    rw [htext, numeral, minus_append hsign (head_ne_minus hwhole _)]
    simp only [whole_append hwhole hbefore, fraction_append hfraction hafter,
      exponent_append hexponent fun c hc => ⟨(hrest c hc).1, (hrest c hc).2.2⟩]

theorem numeral_eq {n : Numeral} {s rest : List Char} (h : numeral s = .ok (n, rest)) :
    ∃ text, s = text ++ rest ∧ IsNumeral n text := by
  obtain ⟨negative, s₀, hminus⟩ : ∃ negative s₀, minus s = (negative, s₀) := ⟨_, _, rfl⟩
  simp only [numeral, hminus] at h
  split at h
  · simp at h
  next w s₁ hw =>
  split at h
  · simp at h
  next f s₂ hf =>
  split at h
  · simp at h
  next e s₃ he =>
  obtain ⟨rfl, rfl⟩ : _ ∧ _ := by simpa using h
  obtain ⟨sign, rfl, hsign⟩ := minus_eq hminus
  obtain ⟨rfl, hwhole⟩ := whole_eq hw
  obtain ⟨fractionText, rfl, hfraction⟩ := fraction_eq hf
  obtain ⟨exponentText, rfl, hexponent⟩ := exponent_eq he
  exact ⟨sign ++ w ++ fractionText ++ exponentText, by simp, hsign, hwhole, hfraction, hexponent⟩

theorem number_append {n : Numeral} {x : Number} {s rest : List Char} (h : IsNumeral n s)
    (hx : n.number? = some x) (hrest : Stops rest) : number (s ++ rest) = .ok (x, rest) := by
  simp only [number, numeral_append h hrest, hx]

theorem number_eq {x : Number} {s rest : List Char} (h : number s = .ok (x, rest)) :
    ∃ n text, s = text ++ rest ∧ IsNumeral n text ∧ n.number? = some x := by
  unfold number at h
  split at h
  · simp at h
  next n rest' hn =>
  split at h
  · next y hy =>
    obtain ⟨rfl, rfl⟩ : _ ∧ _ := by simpa using h
    obtain ⟨text, hs, hnumeral⟩ := numeral_eq hn
    exact ⟨n, text, hs, hnumeral, hy⟩
  · simp at h

end JsonAssert.Json
