import JsonAssert.Proofs.Assertion.Generation
import JsonAssert.Proofs.Assertion.Reading

/-! The lines of generated text: no control character stands in an assertion, so the text divides at
its line feeds into the assertions that it was joined from. -/
namespace JsonAssert
open Grammar

/-- All characters are printed, or at least are no controls of ASCII. -/
def IsPrinted (s : List Char) : Prop := ∀ c ∈ s, 0x20 ≤ c.toNat

/-- A test that closed texts pass quickly. -/
instance (s : List Char) : Decidable (IsPrinted s) :=
  decidable_of_iff (s.all fun c => Nat.ble 0x20 c.toNat) (by simp [IsPrinted])

theorem isPrinted_append {s t : List Char} : IsPrinted (s ++ t) ↔ IsPrinted s ∧ IsPrinted t :=
  List.forall_mem_append

theorem isPrinted_cons {c : Char} {s : List Char} :
    IsPrinted (c :: s) ↔ 0x20 ≤ c.toNat ∧ IsPrinted s :=
  List.forall_mem_cons

theorem isPrinted_nil : IsPrinted [] := List.forall_mem_nil _

theorem isPrinted_ofList {s : List Char} (h : IsPrinted s) :
    IsPrinted (String.ofList s).toList := by
  rwa [String.toList_ofList]

theorem IsPrinted.append {s t : String} (hs : IsPrinted s.toList) (ht : IsPrinted t.toList) :
    IsPrinted (s ++ t).toList := by
  rw [String.toList_append, isPrinted_append]
  exact ⟨hs, ht⟩

theorem IsPrinted.word {s : String} (hs : IsPrinted s.toList) {word : List Char}
    (hword : IsPrinted word) : IsPrinted (s ++ String.ofList word).toList :=
  hs.append (isPrinted_ofList hword)

theorem lineFeed_not_mem {s : List Char} (h : IsPrinted s) : '\n' ∉ s := by
  intro hmem
  have hprinted := h '\n' hmem
  revert hprinted
  decide

/-! Numerals -/

theorem isPrinted_of_isDigits {s : List Char} (h : ∀ c ∈ s, IsDigit c) : IsPrinted s := by
  intro c hc
  have hlow := (Json.char_le_iff _ _).mp (h c hc).1
  simp only [Char.reduceToNat] at hlow
  omega

theorem isPrinted_of_isExponent {exponent : Option (Bool × List Char)} {s : List Char}
    (h : IsExponent exponent s) : IsPrinted s := by
  have hmark {e : Char} (he : IsExponentMark e) : 0x20 ≤ e.toNat := by
    rcases he with rfl | rfl <;> decide
  cases h with
  | none => exact isPrinted_nil
  | bare he hdigits =>
    exact isPrinted_cons.mpr ⟨hmark he, isPrinted_of_isDigits hdigits.2⟩
  | plus he hdigits =>
    exact isPrinted_cons.mpr ⟨hmark he, isPrinted_cons.mpr ⟨by decide,
      isPrinted_of_isDigits hdigits.2⟩⟩
  | minus he hdigits =>
    exact isPrinted_cons.mpr ⟨hmark he, isPrinted_cons.mpr ⟨by decide,
      isPrinted_of_isDigits hdigits.2⟩⟩

theorem isPrinted_of_isNumeral {n : Numeral} {s : List Char} (h : IsNumeral n s) :
    IsPrinted s := by
  obtain ⟨hsign, hwhole, hfraction, hexponent⟩ := h
  simp only [isPrinted_append]
  refine ⟨⟨⟨?_, isPrinted_of_isDigits hwhole.1.2⟩, ?_⟩, isPrinted_of_isExponent hexponent⟩
  · cases hsign with
    | none => exact isPrinted_nil
    | minus => simp [IsPrinted]
  · cases hfraction with
    | none => exact isPrinted_nil
    | some hdigits => exact isPrinted_cons.mpr ⟨by decide, isPrinted_of_isDigits hdigits.2⟩

theorem isPrinted_digitChar {n : ℕ} (hn : n < 16) : 0x20 ≤ n.digitChar.toNat := by
  interval_cases n <;> decide

theorem isPrinted_toDigits {base : ℕ} (hlow : 1 < base) (hhigh : base ≤ 16) (n : ℕ) :
    IsPrinted (Nat.toDigits base n) := by
  induction n using Nat.strong_induction_on with
  | _ n ih =>
    by_cases hn : n < base
    · rw [Nat.toDigits_of_lt_base hn, isPrinted_cons]
      exact ⟨isPrinted_digitChar (by omega), isPrinted_nil⟩
    · have hmod := Nat.mod_lt n (by omega : 0 < base)
      rw [Nat.toDigits_of_base_le hlow (by omega), isPrinted_append, isPrinted_cons]
      exact ⟨ih _ (Nat.div_lt_self (by omega) hlow), isPrinted_digitChar (by omega), isPrinted_nil⟩

theorem isPrinted_repr (n : ℕ) : IsPrinted n.repr.toList := by
  rw [Nat.repr_eq_ofList_toDigits, String.toList_ofList]
  exact isPrinted_toDigits (by decide) (by decide) n

theorem IsPrinted.count {s : String} (hs : IsPrinted s.toList) (n : ℕ) :
    IsPrinted (s ++ n.repr).toList :=
  hs.append (isPrinted_repr n)

/-! Strings -/

namespace Quoted

theorem isPrinted_letter {c l : Char} (h : letter c = some l) : 0x20 ≤ l.toNat := by
  unfold letter at h
  split at h <;> simp_all <;> subst h <;> decide

/-- What is no printed character is escaped. -/
theorem isPrinted_escape (c : Char) : IsPrinted (escape c) := by
  unfold escape
  split
  · next l hl => simp [IsPrinted, isPrinted_letter hl]
  · split_ifs with hcontrol
    · have hhigh := isPrinted_digitChar (n := c.toNat / 16) (by omega)
      have hlow := isPrinted_digitChar (n := c.toNat % 16) (by omega)
      simp [IsPrinted, hhigh, hlow]
    · exact isPrinted_cons.mpr ⟨by omega, isPrinted_nil⟩

theorem isPrinted_encode (text : List Char) : IsPrinted (encode text) := by
  have hescapes : IsPrinted (text.flatMap escape) := by
    intro d hd
    obtain ⟨c, -, hdc⟩ := List.mem_flatMap.mp hd
    exact isPrinted_escape c d hdc
  rw [encode, isPrinted_cons, isPrinted_append]
  exact ⟨by decide, hescapes, by simp [IsPrinted]⟩

end Quoted

/-! Assertions -/

namespace Script

theorem isPrinted_name {name : String} (hname : IsName name) : IsPrinted name.toList := by
  intro c hc
  have hpart := List.all_eq_true.mp hname.2.1 c hc
  by_contra hcontrol
  have hsmall : c.toNat < 0x20 := by omega
  obtain ⟨n, hn⟩ : ∃ n, c.toNat = n := ⟨_, rfl⟩
  obtain rfl : c = Char.ofNat n := by rw [← hn, Char.ofNat_toNat]
  rw [hn] at hsmall
  interval_cases n <;> exact absurd hpart (by decide)

theorem isPrinted_subscript (k : Key) : IsPrinted k.subscript.toList := by
  cases k with
  | text s =>
    rw [toList_subscript_text, isPrinted_cons, isPrinted_append]
    exact ⟨by decide, Quoted.isPrinted_encode _, by simp [IsPrinted]⟩
  | int n =>
    have hnumber : IsPrinted (toString n).toList := by
      cases n with
      | ofNat m => exact isPrinted_repr m
      | negSucc m => exact (isPrinted_ofList (s := ['-']) (by decide)).append (isPrinted_repr _)
    have hopen : IsPrinted ("[" ++ toString n).toList :=
      (isPrinted_ofList (s := ['[']) (by decide)).append hnumber
    have hclose : IsPrinted [']'] := by decide
    exact hopen.word hclose
  | bool b => cases b <;> exact isPrinted_ofList (by decide)

theorem isPrinted_numberText (x : Number) : IsPrinted x.text.toList := by
  by_cases hx : x.IsFinite
  · obtain ⟨n, hn, -⟩ := exists_numeral hx
    exact isPrinted_of_isNumeral hn
  · cases x with
    | int i => exact absurd rfl hx
    | float x =>
      cases x with
      | finite negative significand scale h => cases negative <;> exact absurd rfl hx
      | infinite negative =>
        cases negative
        · exact isPrinted_ofList (s := ['i', 'n', 'f']) (by decide)
        · exact isPrinted_ofList (s := ['-', 'i', 'n', 'f']) (by decide)
      | nan => exact isPrinted_ofList (s := ['n', 'a', 'n']) (by decide)

theorem isPrinted_literal (l : Leaf) : IsPrinted l.literal.toList := by
  cases l with
  | number x => exact isPrinted_numberText x
  | text s =>
    rw [Leaf.literal, quoted, String.toList_ofList]
    exact Quoted.isPrinted_encode _
  | bool b => cases b <;> simp [Leaf.literal, IsPrinted]
  | _ => simp [Leaf.literal, IsPrinted]

theorem isPrinted_body (path : List Key) (l : Leaf) : IsPrinted (body path l) := by
  have hsubscripts : IsPrinted (path.flatMap fun k => k.subscript.toList) := by
    intro c hc
    obtain ⟨k, -, hck⟩ := List.mem_flatMap.mp hc
    exact isPrinted_subscript k c hck
  have hrelation : IsPrinted (relationOf l).spelling := by
    cases relationOf l <;> simp [Relation.spelling, IsPrinted]
  rw [body, isPrinted_append, isPrinted_append]
  exact ⟨hsubscripts, hrelation, isPrinted_literal l⟩

theorem isPrinted_assertion {root : String} (hroot : IsName root) (path : List Key) (l : Leaf) :
    IsPrinted (l.assertion (path.foldl subscripted root)).toList := by
  rw [toList_assertion, isPrinted_append, isPrinted_append]
  exact ⟨by simp [IsPrinted], isPrinted_name hroot, isPrinted_body path l⟩

end Script

/-! Lines -/

theorem toList_unlines_cons (line : String) (lines : List String) :
    (unlines (line :: lines)).toList = line.toList ++ '\n' :: (unlines lines).toList := by
  have hfeed : "\n".toList = ['\n'] := rfl
  simp [unlines, hfeed]

theorem splitOn_unlines_append {lines : List String} (h : ∀ line ∈ lines, IsPrinted line.toList)
    (s : String) : (unlines lines ++ s).toList.splitOn '\n' =
      lines.map String.toList ++ s.toList.splitOn '\n' := by
  induction lines with
  | nil => simp [unlines]
  | cons line lines ih =>
    have hrest := ih fun l hl => h l (List.mem_cons_of_mem _ hl)
    have hline := lineFeed_not_mem (h line List.mem_cons_self)
    rw [String.toList_append] at hrest ⊢
    rw [toList_unlines_cons, List.append_assoc, List.cons_append,
      List.splitOn_append_cons_self_of_not_mem hline, hrest]
    rfl

/-- Every line ends with a line feed, and behind the last one nothing is left. -/
theorem splitOn_unlines {lines : List String} (h : ∀ line ∈ lines, IsPrinted line.toList) :
    (unlines lines).toList.splitOn '\n' = lines.map String.toList ++ [[]] := by
  have hlines := splitOn_unlines_append h ""
  rw [String.append_empty] at hlines
  exact hlines

end JsonAssert
