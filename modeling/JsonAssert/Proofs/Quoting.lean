import JsonAssert.Proofs.Assertion.Lines
import JsonAssert.Proofs.Json.Writing

/-! Quoted texts are literals of both languages. No quote in their middle is without a backslash that
escapes it, so the last one closes them, and the reader of JSON and that of scripts give back the one
text that was quoted. -/
namespace JsonAssert
open Grammar

/-! Escaped quotes -/

/-- How many backslashes a text ends in. -/
def trailingBackslashes (s : List Char) : ℕ := (s.rtakeWhile (· == '\\')).length

theorem trailingBackslashes_backslash (s : List Char) :
    trailingBackslashes (s ++ ['\\']) = trailingBackslashes s + 1 := by
  simp [trailingBackslashes, List.rtakeWhile_concat_pos]

theorem trailingBackslashes_other (s : List Char) {c : Char} (hc : c ≠ '\\') :
    trailingBackslashes (s ++ [c]) = 0 := by
  simp [trailingBackslashes, List.rtakeWhile_concat_neg, hc]

/-- What can stand between two quotes. In a run of backslashes every other one is escaped itself, so
the runs before a quote are odd, and the one at the end, before the closing quote, is even. -/
structure IsEnclosed (body : List Char) : Prop where
  quotes : ∀ before after, body = before ++ '"' :: after → Odd (trailingBackslashes before)
  ending : Even (trailingBackslashes body)

/-- A quote in a text that grew by a character is that character, or was there before. -/
theorem quote_of_concat {body before after : List Char} {c : Char}
    (h : body ++ [c] = before ++ '"' :: after) :
    (c = '"' ∧ before = body) ∨ ∃ rest, body = before ++ '"' :: rest := by
  rcases List.eq_nil_or_concat after with rfl | ⟨rest, d, rfl⟩
  · obtain ⟨rfl, hc⟩ := List.append_inj' h rfl
    exact .inl ⟨List.singleton_inj.mp hc, rfl⟩
  · rw [List.concat_eq_append, ← List.cons_append, ← List.append_assoc] at h
    exact .inr ⟨rest, (List.append_inj' h rfl).1⟩

theorem quotes_concat {body : List Char} {c : Char}
    (h : ∀ before after, body = before ++ '"' :: after → Odd (trailingBackslashes before))
    (hc : c = '"' → Odd (trailingBackslashes body)) (before after : List Char)
    (heq : body ++ [c] = before ++ '"' :: after) : Odd (trailingBackslashes before) := by
  rcases quote_of_concat heq with ⟨hquote, rfl⟩ | ⟨rest, hrest⟩
  · exact hc hquote
  · exact h before rest hrest

namespace IsEnclosed
variable {body : List Char}

theorem nil : IsEnclosed [] where
  quotes before after h := by simp at h
  ending := by simp [trailingBackslashes]

theorem plain (h : IsEnclosed body) {c : Char} (hquote : c ≠ '"') (hbackslash : c ≠ '\\') :
    IsEnclosed (body ++ [c]) where
  quotes := quotes_concat h.quotes fun hc => absurd hc hquote
  ending := by simp [trailingBackslashes_other body hbackslash]

/-- A backslash escapes the character behind it, a quote or a backslash too. -/
theorem pair (h : IsEnclosed body) (c : Char) : IsEnclosed (body ++ ['\\'] ++ [c]) := by
  have hodd : Odd (trailingBackslashes (body ++ ['\\'])) := by
    rw [trailingBackslashes_backslash]
    exact h.ending.add_one
  constructor
  · exact quotes_concat (quotes_concat h.quotes (by simp)) fun _ => hodd
  · -- A second backslash makes the run even again; any other character ends it.
    by_cases hc : c = '\\'
    · rw [hc, trailingBackslashes_backslash]
      exact hodd.add_one
    · rw [trailingBackslashes_other _ hc]
      exact Even.zero

theorem hexDigit (h : IsEnclosed body) {n : ℕ} (hn : n < 16) :
    IsEnclosed (body ++ [n.digitChar]) := by
  apply h.plain
  · interval_cases n <;> decide
  · interval_cases n <;> decide

theorem escape (h : IsEnclosed body) (c : Char) : IsEnclosed (body ++ Quoted.escape c) := by
  unfold Quoted.escape
  split
  · next l _ => simpa using h.pair l
  · next hletter =>
    obtain ⟨hquote, hbackslash⟩ := Quoted.ne_of_letter_eq_none hletter
    split_ifs with hcontrol
    · have hzero : '0' = Nat.digitChar 0 := rfl
      have hhigh : c.toNat / 16 < 16 := by omega
      have hlow : c.toNat % 16 < 16 := by omega
      have hcode := ((((h.pair 'u').hexDigit (by decide : 0 < 16)).hexDigit
        (by decide : 0 < 16)).hexDigit hhigh).hexDigit hlow
      simpa [← hzero] using hcode
    · exact h.plain hquote hbackslash

/-- Of a quoted text, what stands between the quotes. -/
theorem flatMap_escape (text : List Char) : IsEnclosed (text.flatMap Quoted.escape) := by
  induction text using List.reverseRecOn with
  | nil => exact .nil
  | append_singleton text c ih =>
    rw [List.flatMap_append, List.flatMap_singleton]
    exact ih.escape c

end IsEnclosed

/-! Both readers -/

/-- A quoted text is printed, its first quote belongs to its last, and it is read as the text itself
in both languages: as the front of any text, and as a whole one, from characters and from bytes. -/
theorem quoted_read_by_both (s : String) :
    ∃ body, (quoted s).toList = '"' :: (body ++ ['"']) ∧ IsEnclosed body ∧
      (∀ c ∈ (quoted s).toList, 0x20 ≤ c.toNat) ∧
      (∀ rest, Json.contents (body ++ '"' :: rest) = .ok (s.toList, rest)) ∧
      (∀ rest, Script.contents (body ++ '"' :: rest) = some (s.toList, rest)) ∧
      (Source.text (quoted s)).parse = .ok (.text s) ∧
      (Source.bytes (Utf8.encode (quoted s).toList)).parse = .ok (.text s) ∧
      Script.literal? (quoted s).toList = some (.text s) := by
  have hquoted : (quoted s).toList = Quoted.encode s.toList := String.toList_ofList
  have hparse : Json.parse (quoted s).toList = .ok (.text s) := by
    rw [hquoted]
    exact (Data.IsJson.text s).parse_written
  refine ⟨s.toList.flatMap Quoted.escape, hquoted, .flatMap_escape s.toList, ?_,
    Quoted.contents_flatMap_escape s.toList, Script.contents_append s.toList, hparse, ?_,
    Script.literal?_literal (l := .text s) trivial⟩
  · rw [hquoted]
    exact Quoted.isPrinted_encode s.toList
  · rw [Source.parse_bytes (Utf8.decode_encode _), hparse]

end JsonAssert
