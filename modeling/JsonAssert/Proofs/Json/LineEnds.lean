import JsonAssert.Proofs.Json.Acceptance
import JsonAssert.Proofs.Text.Newline

/-! Line ends do not matter to what is read: a carriage return is either a blank, and then so is the
line feed in its place, or it is as wrong as a line feed. -/
namespace JsonAssert.Json
open Newline

/-! Agreement -/

/-- On a text and on its unified form a reader takes the same, and leaves a rest and its unified
form; or it fails on both. -/
def Agrees {ε α : Type} (read : List Char → Except ε (α × List Char)) (s : List Char) : Prop :=
  (∃ x rest, read s = .ok (x, rest) ∧ read (unify s) = .ok (x, unify rest)) ∨
    ∃ f f', read s = .error f ∧ read (unify s) = .error f'

theorem Agrees.congr {ε α : Type} {read read' : List Char → Except ε (α × List Char)}
    {s : List Char} (h : Agrees read' s) (hs : read s = read' s)
    (hunify : read (unify s) = read' (unify s)) : Agrees read s := by
  unfold Agrees
  rw [hs, hunify]
  exact h

/-- A reader that takes a character and goes on as another one. -/
theorem Agrees.cons {ε α : Type} {read read' : List Char → Except ε (α × List Char)} {c : Char}
    {s : List Char} (h : Agrees read' s) (hc : c ≠ '\r')
    (hread : ∀ s, read (c :: s) = read' s) : Agrees read (c :: s) := by
  unfold Agrees
  rw [unify_cons hc, hread, hread]
  exact h

theorem agrees_of_ok {α : Type} {read : Reader α} {s : List Char} {x : α}
    (h : read s = .ok (x, s)) (h' : read (unify s) = .ok (x, unify s)) : Agrees read s :=
  .inl ⟨x, s, h, h'⟩

theorem Agrees.map {ε α β : Type} {read : List Char → Except ε (α × List Char)} {s : List Char}
    (h : Agrees read s) (f : α → β) :
    Agrees (fun s => (read s).map fun (x, rest) => (f x, rest)) s := by
  rcases h with ⟨x, rest, h, h'⟩ | ⟨e, e', h, h'⟩
  · exact .inl ⟨f x, rest, congrArg _ h, congrArg _ h'⟩
  · exact .inr ⟨e, e', congrArg _ h, congrArg _ h'⟩

theorem takeWhile_unify {p : Char → Bool} (hp : ∀ c, ¬ IsInner c → p c = false) (s : List Char) :
    (unify s).takeWhile p = s.takeWhile p ∧ (unify s).dropWhile p = unify (s.dropWhile p) := by
  induction s with
  | nil => exact ⟨rfl, rfl⟩
  | cons c s ih =>
    rcases unify_cases (c :: s) with ⟨h, -⟩ | ⟨d, s', hd, h, hs⟩ | ⟨d, e, s', t, hd, he, h, hs⟩
    · simp at h
    · obtain ⟨rfl, rfl⟩ : c = d ∧ s = s' := by simpa using h
      rw [hs, List.takeWhile_cons, List.takeWhile_cons, List.dropWhile_cons, List.dropWhile_cons]
      split_ifs
      · exact ⟨by rw [ih.1], ih.2⟩
      · exact ⟨rfl, hs.symm⟩
    · obtain ⟨rfl, rfl⟩ : c = d ∧ s = s' := by simpa using h
      rw [List.takeWhile_cons_of_neg (by simp [hp c hd]),
        List.dropWhile_cons_of_neg (by simp [hp c hd]), hs,
        List.takeWhile_cons_of_neg (by simp [hp e he]),
        List.dropWhile_cons_of_neg (by simp [hp e he])]
      exact ⟨rfl, rfl⟩

/-! Numerals -/

theorem not_isDigit_of_not_isInner {c : Char} (h : ¬ IsInner c) : c.isDigit = false := by
  rcases eq_of_not_isInner h with rfl | rfl <;> rfl

theorem digits_unify (s : List Char) : digits (unify s) = ((digits s).1, unify (digits s).2) := by
  obtain ⟨htake, hdrop⟩ := takeWhile_unify (fun _ hc => not_isDigit_of_not_isInner hc) s
  rw [digits, htake, hdrop]
  rfl

theorem minus_of_other {s : List Char} (h : ¬ ∃ t, s = '-' :: t) : minus s = (false, s) := by
  unfold minus
  split
  · next t => exact absurd ⟨t, rfl⟩ h
  · rfl

theorem minus_unify (s : List Char) : minus (unify s) = ((minus s).1, unify (minus s).2) := by
  by_cases h : ∃ t, s = '-' :: t
  · obtain ⟨t, rfl⟩ := h
    rw [unify_cons (by decide)]
    rfl
  · rw [minus_of_other h, minus_of_other (mt (eq_cons_of_unify (by decide)) h)]

theorem sign_of_other {s : List Char} (hminus : ¬ ∃ t, s = '-' :: t)
    (hplus : ¬ ∃ t, s = '+' :: t) : sign s = (false, s) := by
  unfold sign
  split
  · next t => exact absurd ⟨t, rfl⟩ hminus
  · next t => exact absurd ⟨t, rfl⟩ hplus
  · rfl

theorem sign_unify (s : List Char) : sign (unify s) = ((sign s).1, unify (sign s).2) := by
  by_cases hminus : ∃ t, s = '-' :: t
  · obtain ⟨t, rfl⟩ := hminus
    rw [unify_cons (by decide)]
    rfl
  by_cases hplus : ∃ t, s = '+' :: t
  · obtain ⟨t, rfl⟩ := hplus
    rw [unify_cons (by decide)]
    rfl
  rw [sign_of_other hminus hplus, sign_of_other (mt (eq_cons_of_unify (by decide)) hminus)
    (mt (eq_cons_of_unify (by decide)) hplus)]

theorem whole_agrees (s : List Char) : Agrees whole s := by
  have hdigits := digits_unify s
  unfold Agrees whole
  rw [hdigits]
  rcases digits s with ⟨_ | ⟨c, _ | ⟨d, ds⟩⟩, rest⟩
  · exact .inr ⟨_, _, rfl, rfl⟩
  · refine .inl ⟨[c], rest, ?_, ?_⟩ <;> split <;> simp_all
  · by_cases hzero : c = '0'
    · subst hzero
      exact .inr ⟨_, _, rfl, rfl⟩
    · refine .inl ⟨c :: d :: ds, rest, ?_, ?_⟩ <;> split <;> simp_all

theorem fraction_of_other {s : List Char} (h : ¬ ∃ t, s = '.' :: t) :
    fraction s = .ok (none, s) := by
  unfold fraction
  split
  · next t => exact absurd ⟨t, rfl⟩ h
  · rfl

theorem fraction_agrees (s : List Char) : Agrees fraction s := by
  by_cases h : ∃ t, s = '.' :: t
  · obtain ⟨t, rfl⟩ := h
    have hdigits := digits_unify t
    unfold Agrees
    rw [unify_cons (by decide)]
    simp only [fraction, hdigits]
    rcases digits t with ⟨_ | ⟨c, ds⟩, rest⟩
    · exact .inr ⟨_, _, rfl, rfl⟩
    · exact .inl ⟨_, _, rfl, rfl⟩
  · exact agrees_of_ok (fraction_of_other h)
      (fraction_of_other (mt (eq_cons_of_unify (by decide)) h))

theorem exponentDigits_agrees (s : List Char) : Agrees exponentDigits s := by
  have hsign := sign_unify s
  have hdigits := digits_unify (sign s).2
  unfold Agrees exponentDigits
  rw [hsign]
  simp only [hdigits]
  rcases digits (sign s).2 with ⟨_ | ⟨c, ds⟩, rest⟩
  · exact .inr ⟨_, _, rfl, rfl⟩
  · exact .inl ⟨_, _, rfl, rfl⟩

theorem exponent_of_other {s : List Char} (hsmall : ¬ ∃ t, s = 'e' :: t)
    (hlarge : ¬ ∃ t, s = 'E' :: t) : exponent s = .ok (none, s) := by
  unfold exponent
  split
  · next t => exact absurd ⟨t, rfl⟩ hsmall
  · next t => exact absurd ⟨t, rfl⟩ hlarge
  · rfl

theorem exponent_agrees (s : List Char) : Agrees exponent s := by
  by_cases hsmall : ∃ t, s = 'e' :: t
  · obtain ⟨t, rfl⟩ := hsmall
    exact (exponentDigits_agrees t).cons (by decide) fun _ => rfl
  by_cases hlarge : ∃ t, s = 'E' :: t
  · obtain ⟨t, rfl⟩ := hlarge
    exact (exponentDigits_agrees t).cons (by decide) fun _ => rfl
  exact agrees_of_ok (exponent_of_other hsmall hlarge)
    (exponent_of_other (mt (eq_cons_of_unify (by decide)) hsmall)
      (mt (eq_cons_of_unify (by decide)) hlarge))

theorem numeral_agrees (s : List Char) : Agrees numeral s := by
  have hminus := minus_unify s
  unfold Agrees numeral
  rw [hminus]
  rcases whole_agrees (minus s).2 with ⟨w, s₁, hw, hw'⟩ | ⟨f, f', hw, hw'⟩
  · rcases fraction_agrees s₁ with ⟨p, s₂, hp, hp'⟩ | ⟨f, f', hp, hp'⟩
    · rcases exponent_agrees s₂ with ⟨x, s₃, hx, hx'⟩ | ⟨f, f', hx, hx'⟩
      · simp only [hw, hw', hp, hp', hx, hx']
        exact .inl ⟨_, _, rfl, rfl⟩
      · simp only [hw, hw', hp, hp', hx, hx']
        exact .inr ⟨_, _, rfl, rfl⟩
    · simp only [hw, hw', hp, hp']
      exact .inr ⟨_, _, rfl, rfl⟩
  · simp only [hw, hw']
    exact .inr ⟨_, _, rfl, rfl⟩

theorem number_agrees (s : List Char) : Agrees number s := by
  unfold Agrees number
  rcases numeral_agrees s with ⟨n, rest, hn, hn'⟩ | ⟨f, f', hn, hn'⟩
  · simp only [hn, hn']
    cases n.number? with
    | some x => exact .inl ⟨_, _, rfl, rfl⟩
    | none => exact .inr ⟨_, _, rfl, rfl⟩
  · simp only [hn, hn']
    exact .inr ⟨_, _, rfl, rfl⟩

/-! Strings -/

theorem isInner_of_isHexDigit {c : Char} (h : Grammar.IsHexDigit c) : IsInner c := by
  constructor <;> rintro rfl <;> revert h <;> unfold Grammar.IsHexDigit <;> decide

theorem isInner_of_code {a b c d : Char} (h : (Grammar.Piece.code a b c d).IsAllowed) :
    ∀ x ∈ [a, b, c, d], IsInner x := by
  obtain ⟨ha, hb, hc, hd⟩ := h
  simpa using ⟨isInner_of_isHexDigit ha, isInner_of_isHexDigit hb, isInner_of_isHexDigit hc,
    isInner_of_isHexDigit hd⟩

theorem hexNumber?_unify (s : List Char) :
    hexNumber? (unify s) = (hexNumber? s).map fun (n, rest) => (n, unify rest) := by
  cases h : hexNumber? s with
  | some r =>
    obtain ⟨n, rest⟩ := r
    obtain ⟨a, b, c, d, rfl, hallowed, rfl⟩ := hexNumber?_eq h
    have hunify : unify ([a, b, c, d] ++ rest) = [a, b, c, d] ++ unify rest :=
      unify_append (isInner_of_code hallowed) rest
    exact (congrArg hexNumber? hunify).trans (hexNumber?_code hallowed _)
  | none =>
    cases h' : hexNumber? (unify s) with
    | none => rfl
    | some r =>
      obtain ⟨n, rest⟩ := r
      obtain ⟨a, b, c, d, hs, hallowed, -⟩ := hexNumber?_eq h'
      obtain ⟨t, rfl⟩ := eq_append_of_unify (a := [a, b, c, d]) (isInner_of_code hallowed) hs
      have hcode := h.symm.trans (hexNumber?_code hallowed t)
      simp at hcode

theorem secondHalf_of_other {high : ℕ} {s : List Char} (h : ¬ ∃ t, s = ['\\', 'u'] ++ t) :
    secondHalf high s = .error .highSurrogateAlone := by
  unfold secondHalf
  split
  · next t => exact absurd ⟨t, rfl⟩ h
  · rfl

theorem secondHalf_agrees (high : ℕ) (s : List Char) : Agrees (secondHalf high) s := by
  have hinner : ∀ c ∈ ['\\', 'u'], IsInner c := by simp [IsInner]
  by_cases h : ∃ t, s = ['\\', 'u'] ++ t
  · obtain ⟨t, rfl⟩ := h
    have hhex := hexNumber?_unify t
    unfold Agrees
    rw [unify_append hinner]
    simp only [List.cons_append, List.nil_append, secondHalf, hhex]
    cases hexNumber? t with
    | none => exact .inr ⟨_, _, rfl, rfl⟩
    | some r =>
      simp only [Option.map_some]
      split_ifs
      · exact .inl ⟨_, _, rfl, rfl⟩
      · exact .inr ⟨_, _, rfl, rfl⟩
  · have h' : ¬ ∃ t, unify s = ['\\', 'u'] ++ t := by
      rintro ⟨t, ht⟩
      exact h (eq_append_of_unify hinner ht)
    exact .inr ⟨_, _, secondHalf_of_other h, secondHalf_of_other h'⟩

theorem escape_of_other {c : Char} (hc : c ≠ 'u') (s : List Char) :
    escape (c :: s) =
      match unescape c with
      | some d => .ok (d, s)
      | none => .error .invalidEscape := by
  unfold escape
  split
  · simp_all
  · next heq =>
    obtain ⟨rfl, rfl⟩ : _ ∧ _ := by simpa using heq
    rfl
  · simp_all

theorem escape_of_not_isInner {c : Char} (hc : ¬ IsInner c) (s : List Char) :
    escape (c :: s) = .error .invalidEscape := by
  rcases eq_of_not_isInner hc with rfl | rfl <;> rfl

theorem escape_agrees (s : List Char) : Agrees escape s := by
  rcases unify_cases s with ⟨rfl, hs⟩ | ⟨c, s', hc, rfl, hs⟩ | ⟨c, d, s', t, hc, hd, rfl, hs⟩
  · exact .inr ⟨_, _, rfl, rfl⟩
  · unfold Agrees
    rw [hs]
    by_cases hu : c = 'u'
    · subst hu
      have hhex := hexNumber?_unify s'
      simp only [escape, hhex]
      cases hexNumber? s' with
      | none => exact .inr ⟨_, _, rfl, rfl⟩
      | some r =>
        simp only [Option.map_some]
        split_ifs
        · exact secondHalf_agrees r.1 r.2
        · exact .inr ⟨_, _, rfl, rfl⟩
        · exact .inl ⟨_, _, rfl, rfl⟩
    · rw [escape_of_other hu, escape_of_other hu]
      cases unescape c with
      | some d => exact .inl ⟨_, _, rfl, rfl⟩
      | none => exact .inr ⟨_, _, rfl, rfl⟩
  · exact .inr ⟨_, _, escape_of_not_isInner hc _, by rw [hs, escape_of_not_isInner hd]⟩

theorem control_of_not_isInner {c : Char} (hc : ¬ IsInner c) : c.toNat < 0x20 := by
  rcases eq_of_not_isInner hc with rfl | rfl <;> decide

/-- Inside strings neither of the two is allowed. -/
theorem contents_agrees (s : List Char) : Agrees contents s := by
  induction hlength : s.length using Nat.strong_induction_on generalizing s with
  | _ length ih =>
    subst hlength
    have hmore (c : Char) {t : List Char} (ht : t.length < s.length) :=
      (ih t.length ht t rfl).map (c :: ·)
    rcases unify_cases s with ⟨rfl, hs⟩ | ⟨c, s', hc, rfl, hs⟩ | ⟨c, d, s', t, hc, hd, rfl, hs⟩
    · exact .inr ⟨_, _, contents_nil, contents_nil⟩
    · unfold Agrees
      rw [hs]
      by_cases hquote : c = '"'
      · subst hquote
        exact .inl ⟨_, _, contents_quote s', contents_quote _⟩
      by_cases hbackslash : c = '\\'
      · subst hbackslash
        rw [contents_backslash, contents_backslash]
        rcases escape_agrees s' with ⟨d, rest, h, h'⟩ | ⟨f, f', h, h'⟩
        · have hrest := length_of_escape h
          simp only [h, h']
          exact hmore d (by simp only [List.length_cons]; omega)
        · simp only [h, h']
          exact .inr ⟨_, _, rfl, rfl⟩
      by_cases hcontrol : c.toNat < 0x20
      · exact .inr ⟨_, _, contents_control s' hcontrol, contents_control _ hcontrol⟩
      · rw [contents_plain _ hquote hbackslash (by omega),
          contents_plain _ hquote hbackslash (by omega)]
        exact hmore c (by simp)
    · exact .inr ⟨_, _, contents_control s' (control_of_not_isInner hc),
        by rw [hs, contents_control t (control_of_not_isInner hd)]⟩

/-! Values -/

theorem skipBlanks_of_blank {c : Char} (hc : isBlank c = true) (s : List Char) :
    skipBlanks (c :: s) = skipBlanks s :=
  List.dropWhile_cons_of_pos hc

/-- Outside strings both are blanks. -/
theorem skipBlanks_unify (s : List Char) : skipBlanks (unify s) = unify (skipBlanks s) := by
  fun_induction unify s with
  | case1 => rfl
  | case2 s ih =>
    rw [skipBlanks_of_blank rfl, skipBlanks_of_blank rfl, skipBlanks_of_blank rfl, ih]
  | case3 s _ ih => rw [skipBlanks_of_blank rfl, skipBlanks_of_blank rfl, ih]
  | case4 c s _ hreturn ih =>
    by_cases hc : isBlank c = true
    · rw [skipBlanks_of_blank hc, skipBlanks_of_blank hc, ih]
    · have hne : c ≠ '\r' := fun h => hreturn h
      rw [Bool.not_eq_true] at hc
      rw [skipBlanks_cons hc, skipBlanks_cons hc, unify_cons hne]

theorem isInner_of_not_isBlank {c : Char} (h : isBlank c = false) : IsInner c := by
  constructor <;> rintro rfl <;> simp [isBlank] at h

/-- Behind its blanks a text is empty or starts with a character that ends no line. -/
theorem skipBlanks_cases (s : List Char) :
    skipBlanks s = [] ∨ ∃ c s', skipBlanks s = c :: s' ∧ IsInner c := by
  cases h : skipBlanks s with
  | nil => exact .inl rfl
  | cons c s' =>
    have hc := List.head?_dropWhile_not isBlank s
    rw [← skipBlanks, h] at hc
    exact .inr ⟨c, s', rfl, isInner_of_not_isBlank hc⟩

theorem literal_agrees (l : Literal) (s : List Char) : Agrees (literal l) s := by
  have hinner : ∀ c ∈ l.spelling, IsInner c := by cases l <;> simp [Literal.spelling, IsInner]
  by_cases h : ∃ t, s = l.spelling ++ t
  · obtain ⟨t, rfl⟩ := h
    refine .inl ⟨l.data, t, ?_, ?_⟩
    · simp [literal]
    · rw [unify_append hinner]
      simp [literal]
  · have hother {s : List Char} (h : ¬ ∃ t, s = l.spelling ++ t) :
        literal l s = .error ⟨.noLiteral l, s⟩ := by
      apply if_neg
      intro hprefix
      apply h
      obtain ⟨t, ht⟩ := List.isPrefixOf_iff_prefix.mp hprefix
      exact ⟨t, ht.symm⟩
    have h' : ¬ ∃ t, unify s = l.spelling ++ t := by
      rintro ⟨t, ht⟩
      exact h (eq_append_of_unify hinner ht)
    exact .inr ⟨_, _, hother h, hother h'⟩

variable {α : Type} {closing : Closing} {item : Reader α}

theorem head?_unify_skipBlanks (s : List Char) :
    (unify (skipBlanks s)).head? = (skipBlanks s).head? ∧
      (unify (skipBlanks s)).tail = unify (skipBlanks s).tail := by
  rcases skipBlanks_cases s with h | ⟨c, s', h, hc⟩
  · rw [h]
    exact ⟨rfl, rfl⟩
  · rw [h, unify_cons hc.1]
    exact ⟨rfl, rfl⟩

theorem separated_agrees (hitem : ∀ s, Agrees item s) (rounds : ℕ) (s : List Char) :
    Agrees (separated closing item rounds) s := by
  induction rounds generalizing s with
  | zero => exact .inr ⟨_, _, rfl, rfl⟩
  | succ rounds ih =>
    unfold Agrees
    simp only [separated]
    rcases hitem s with ⟨x, rest, h, h'⟩ | ⟨f, f', h, h'⟩
    · simp only [h, h', skipBlanks_unify]
      rcases skipBlanks_cases rest with hskip | ⟨c, t, hskip, hc⟩
      · rw [hskip]
        exact .inr ⟨_, _, rfl, rfl⟩
      · rw [hskip, unify_cons hc.1]
        simp only [skipBlanks_unify, (head?_unify_skipBlanks t).1]
        split_ifs
        · exact .inl ⟨_, _, rfl, rfl⟩
        · exact .inr ⟨_, _, rfl, rfl⟩
        · rcases ih (skipBlanks t) with ⟨xs, rest, h, h'⟩ | ⟨f, f', h, h'⟩
          · simp only [h, h']
            exact .inl ⟨_, _, rfl, rfl⟩
          · simp only [h, h']
            exact .inr ⟨_, _, rfl, rfl⟩
        · exact .inr ⟨_, _, rfl, rfl⟩
    · simp only [h, h']
      exact .inr ⟨_, _, rfl, rfl⟩

theorem items_agrees (closing : Closing) (hitem : ∀ s, Agrees item s) (rounds : ℕ)
    (s : List Char) :
    Agrees (items closing item rounds) s := by
  obtain ⟨hhead, htail⟩ := head?_unify_skipBlanks s
  unfold Agrees items
  rw [skipBlanks_unify, hhead, htail]
  split_ifs
  · exact .inl ⟨_, _, rfl, rfl⟩
  · exact separated_agrees hitem rounds (skipBlanks s)

/-- The value of a member, from the colon behind its key. -/
def memberValue (item : Reader Data) (key : List Char) : Reader (Key × Data)
  | ':' :: s => (item (skipBlanks s)).map fun (x, rest) => ((.text (.ofList key), x), rest)
  | s => .error ⟨.noColon, s⟩

theorem memberValue_of_other (item : Reader Data) (key : List Char) {s : List Char}
    (h : ¬ ∃ t, s = ':' :: t) : memberValue item key s = .error ⟨.noColon, s⟩ := by
  unfold memberValue
  split
  · next t => exact absurd ⟨t, rfl⟩ h
  · rfl

theorem memberValue_agrees {item : Reader Data} (hitem : ∀ s, Agrees item s) (key s : List Char) :
    Agrees (memberValue item key) s := by
  by_cases h : ∃ t, s = ':' :: t
  · obtain ⟨t, rfl⟩ := h
    have hvalue := (hitem (skipBlanks t)).map fun x => (Key.text (.ofList key), x)
    unfold Agrees at hvalue ⊢
    rw [unify_cons (by decide)]
    rwa [← skipBlanks_unify] at hvalue
  · have h' := mt (eq_cons_of_unify (by decide)) h
    exact .inr ⟨_, _, memberValue_of_other item key h, memberValue_of_other item key h'⟩

theorem member_quote (item : Reader Data) (s : List Char) :
    member item ('"' :: s) =
      match contents s with
      | .error f => .error f
      | .ok (key, rest) => memberValue item key (skipBlanks rest) := by
  simp only [member]
  cases contents s with
  | error f => rfl
  | ok r =>
    by_cases hcolon : ∃ t, skipBlanks r.2 = ':' :: t
    · obtain ⟨t, ht⟩ := hcolon
      simp only [ht, memberValue]
      cases item (skipBlanks t) <;> rfl
    · simp only [memberValue_of_other item r.1 hcolon]
      split
      · next t ht => exact absurd ⟨t, ht⟩ hcolon
      · rfl

theorem member_of_other (item : Reader Data) {s : List Char} (h : ¬ ∃ t, s = '"' :: t) :
    member item s = .error ⟨.noKey, s⟩ := by
  unfold member
  split
  · next t => exact absurd ⟨t, rfl⟩ h
  · rfl

theorem member_agrees {item : Reader Data} (hitem : ∀ s, Agrees item s) (s : List Char) :
    Agrees (member item) s := by
  by_cases h : ∃ t, s = '"' :: t
  · obtain ⟨t, rfl⟩ := h
    unfold Agrees
    rw [unify_cons (by decide), member_quote, member_quote]
    rcases contents_agrees t with ⟨key, rest, h, h'⟩ | ⟨f, f', h, h'⟩
    · simp only [h, h', skipBlanks_unify]
      exact memberValue_agrees hitem key (skipBlanks rest)
    · simp only [h, h']
      exact .inr ⟨_, _, rfl, rfl⟩
  · have h' := mt (eq_cons_of_unify (by decide)) h
    exact .inr ⟨_, _, member_of_other item h, member_of_other item h'⟩

/-- What a scalar is when no letter and no quote tells it. -/
def numberScalar : Reader Data := fun s =>
  if s.head?.any fun c => c.isDigit || c == '-' || c == '+' || c == '.' then
    match number s with
    | .error f => .error f
    | .ok (n, rest) => .ok (.number n, rest)
  else .error ⟨.noValue, s⟩

theorem numberScalar_agrees (s : List Char) : Agrees numberScalar s := by
  have hhead : ((unify s).head?.any fun c => c.isDigit || c == '-' || c == '+' || c == '.') =
      s.head?.any fun c => c.isDigit || c == '-' || c == '+' || c == '.' := by
    rcases unify_cases s with ⟨rfl, hs⟩ | ⟨c, s', -, rfl, hs⟩ | ⟨c, d, s', t, hc, hd, rfl, hs⟩
    · rfl
    · rw [hs]
      rfl
    · have hother {c : Char} (hc : ¬ IsInner c) :
          (c.isDigit || c == '-' || c == '+' || c == '.') = false := by
        rcases eq_of_not_isInner hc with rfl | rfl <;> rfl
      rw [hs, List.head?_cons, List.head?_cons, Option.any_some, Option.any_some, hother hc,
        hother hd]
  unfold Agrees numberScalar
  rw [hhead]
  split_ifs
  · rcases number_agrees s with ⟨n, rest, h, h'⟩ | ⟨f, f', h, h'⟩
    · simp only [h, h']
      exact .inl ⟨_, _, rfl, rfl⟩
    · simp only [h, h']
      exact .inr ⟨_, _, rfl, rfl⟩
  · exact .inr ⟨_, _, rfl, rfl⟩

theorem scalar_of_other {s : List Char} (hquote : ¬ ∃ t, s = '"' :: t) (hn : ¬ ∃ t, s = 'n' :: t)
    (ht : ¬ ∃ t, s = 't' :: t) (hf : ¬ ∃ t, s = 'f' :: t) : scalar s = numberScalar s := by
  unfold scalar
  split
  · next t => exact absurd ⟨t, rfl⟩ hquote
  · next t => exact absurd ⟨t, rfl⟩ hn
  · next t => exact absurd ⟨t, rfl⟩ ht
  · next t => exact absurd ⟨t, rfl⟩ hf
  · rfl

theorem scalar_quote (s : List Char) :
    scalar ('"' :: s) = (contents s).map fun (text, rest) => (.text (.ofList text), rest) := by
  rw [scalar]
  cases contents s <;> rfl

theorem literalScalar_agrees {c : Char} {l : Literal} (hc : c ≠ '\r')
    (hread : ∀ s, scalar (c :: s) = literal l (c :: s)) (s : List Char) :
    Agrees scalar (c :: s) := by
  apply (literal_agrees l (c :: s)).congr (hread s)
  rw [unify_cons hc]
  exact hread (unify s)

theorem scalar_agrees (s : List Char) : Agrees scalar s := by
  by_cases hquote : ∃ t, s = '"' :: t
  · obtain ⟨t, rfl⟩ := hquote
    exact ((contents_agrees t).map fun text => .text (.ofList text)).cons (by decide) scalar_quote
  by_cases hn : ∃ t, s = 'n' :: t
  · obtain ⟨t, rfl⟩ := hn
    exact literalScalar_agrees (by decide) (fun _ => rfl) t
  by_cases ht : ∃ t, s = 't' :: t
  · obtain ⟨t, rfl⟩ := ht
    exact literalScalar_agrees (by decide) (fun _ => rfl) t
  by_cases hf : ∃ t, s = 'f' :: t
  · obtain ⟨t, rfl⟩ := hf
    exact literalScalar_agrees (by decide) (fun _ => rfl) t
  apply (numberScalar_agrees s).congr (scalar_of_other hquote hn ht hf)
  exact scalar_of_other (mt (eq_cons_of_unify (by decide)) hquote)
    (mt (eq_cons_of_unify (by decide)) hn) (mt (eq_cons_of_unify (by decide)) ht)
    (mt (eq_cons_of_unify (by decide)) hf)

theorem array_eq_map (item : Reader Data) (rounds : ℕ) (s : List Char) :
    array item rounds s =
      (items .array item rounds s).map fun (xs, rest) => (.list xs, rest) := by
  rw [array]
  cases items .array item rounds s <;> rfl

theorem object_eq_map (item : Reader Data) (rounds : ℕ) (s : List Char) :
    object item rounds s =
      (items .object (member item) rounds s).map fun (entries, rest) =>
        (.dict (Dict.ofList entries), rest) := by
  rw [object]
  cases items .object (member item) rounds s <;> rfl

theorem array_agrees {item : Reader Data} (hitem : ∀ s, Agrees item s) (rounds : ℕ)
    (s : List Char) : Agrees (array item rounds) s :=
  ((items_agrees .array hitem rounds s).map Data.list).congr (array_eq_map item rounds s)
    (array_eq_map item rounds _)

theorem object_agrees {item : Reader Data} (hitem : ∀ s, Agrees item s) (rounds : ℕ)
    (s : List Char) : Agrees (object item rounds) s :=
  ((items_agrees .object (member_agrees hitem) rounds s).map
    fun entries => Data.dict (Dict.ofList entries)).congr (object_eq_map item rounds s)
    (object_eq_map item rounds _)

theorem value_of_other {rounds depth : ℕ} {s : List Char} (hbracket : ¬ ∃ t, s = '[' :: t)
    (hbrace : ¬ ∃ t, s = '\x7b' :: t) : value rounds depth s = scalar s := by
  unfold value
  split
  · next t => exact absurd ⟨t, rfl⟩ hbracket
  · next t => exact absurd ⟨t, rfl⟩ hbrace
  · next t => exact absurd ⟨t, rfl⟩ hbracket
  · next t => exact absurd ⟨t, rfl⟩ hbrace
  · rfl

theorem value_agrees_of_other {rounds depth : ℕ} {s : List Char}
    (hbracket : ¬ ∃ t, s = '[' :: t) (hbrace : ¬ ∃ t, s = '\x7b' :: t) :
    Agrees (value rounds depth) s := by
  apply (scalar_agrees s).congr (value_of_other hbracket hbrace)
  exact value_of_other (mt (eq_cons_of_unify (by decide)) hbracket)
    (mt (eq_cons_of_unify (by decide)) hbrace)

/-- A bracket or a brace where nothing may nest is refused whatever follows. -/
theorem value_agrees_of_tooDeep {rounds : ℕ} {c : Char} (hc : c = '[' ∨ c = '\x7b')
    (s : List Char) : Agrees (value rounds 0) (c :: s) := by
  rcases hc with rfl | rfl
  · exact .inr ⟨_, _, rfl, by rw [unify_cons (by decide)]; rfl⟩
  · exact .inr ⟨_, _, rfl, by rw [unify_cons (by decide)]; rfl⟩

theorem value_agrees (rounds depth : ℕ) (s : List Char) : Agrees (value rounds depth) s := by
  induction depth generalizing s with
  | zero =>
    by_cases hbracket : ∃ t, s = '[' :: t
    · obtain ⟨t, rfl⟩ := hbracket
      exact value_agrees_of_tooDeep (.inl rfl) t
    by_cases hbrace : ∃ t, s = '\x7b' :: t
    · obtain ⟨t, rfl⟩ := hbrace
      exact value_agrees_of_tooDeep (.inr rfl) t
    exact value_agrees_of_other hbracket hbrace
  | succ depth ih =>
    by_cases hbracket : ∃ t, s = '[' :: t
    · obtain ⟨t, rfl⟩ := hbracket
      exact (array_agrees ih rounds t).cons (by decide) fun _ => rfl
    by_cases hbrace : ∃ t, s = '\x7b' :: t
    · obtain ⟨t, rfl⟩ := hbrace
      exact (object_agrees ih rounds t).cons (by decide) fun _ => rfl
    exact value_agrees_of_other hbracket hbrace

/-! Whole texts -/

theorem readsAs_unify_iff (rounds : ℕ) (s : List Char) (d : Data) :
    ReadsAs rounds (unify s) d ↔ ReadsAs rounds s d := by
  unfold ReadsAs
  rw [skipBlanks_unify]
  rcases value_agrees rounds maxDepth (skipBlanks s) with ⟨x, rest, h, h'⟩ | ⟨f, f', h, h'⟩
  · simp [h, h', skipBlanks_unify, unify_eq_nil_iff]
  · simp [h, h']

/-- A text and its unified form are read alike. -/
theorem parse_unify_iff (s : List Char) (d : Data) : parse (unify s) = .ok d ↔ parse s = .ok d := by
  rw [parse_eq_ok_iff, parse_eq_ok_iff, ← readsAs_iff (length_unify_le s) d,
    ← readsAs_iff (le_refl s.length) d, readsAs_unify_iff]

end JsonAssert.Json
