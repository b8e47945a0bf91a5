import JsonAssert.Proofs.Data.Json
import JsonAssert.Proofs.Json.Acceptance

/-! Whatever is read from a text is JSON data: its keys are distinct texts, and its numbers are in
range. -/
namespace JsonAssert
open Grammar Json

theorem Numeral.isJson_of_number? {n : Numeral} {x : Number} (h : n.number? = some x) :
    x.IsJson := by
  unfold number? at h
  split at h
  · next i hint =>
    obtain rfl : Number.int i = x := by simpa using h
    unfold int? at hint
    split at hint
    · dsimp only at hint
      have hbits : 2 ^ (integerBits - 1) < 2 ^ integerBits := by decide
      split_ifs at hint <;> obtain rfl := Option.some.inj hint <;> constructor <;>
        simp only [integerBits] at * <;> omega
    · simp at hint
  · rcases n.float_cases with ⟨significand, scale, hcanonical, hfloat⟩ | hfloat
    · obtain rfl : Number.float (.finite n.negative significand scale hcanonical) = x := by
        simpa [hfloat] using h
      exact .float hcanonical
    · simp [hfloat] at h

theorem Dict.hasTextKeys_ofList {α : Type} {entries : Dict α} (h : entries.HasTextKeys) :
    (ofList entries).HasTextKeys := by
  intro e he
  obtain ⟨e', he', hkey⟩ := (mem_ofList he).1
  rw [← hkey]
  exact h e' he'

theorem isJson_data {depth : ℕ} {t : Phrase} (h : t.Fits IsPaired HasNumber depth) :
    t.data.IsJson depth := by
  induction h with
  | literal l => cases l <;> constructor
  | numeral hnumber =>
    obtain ⟨x, hx⟩ := hnumber
    rw [Phrase.data, hx]
    exact .number (Numeral.isJson_of_number? hx)
  | string _ => exact .text _
  | array _ ih =>
    rw [Phrase.data, dataOfItems_eq_map]
    apply Data.IsJson.list
    intro d hd
    obtain ⟨t, ht, rfl⟩ := List.mem_map.mp hd
    exact ih t ht
  | object _ _ ih =>
    rw [Phrase.data, dataOfMembers_eq_map]
    refine .dict (Dict.hasTextKeys_ofList ?_) (Dict.nodup_of_distinct (Dict.distinct_ofList _)) ?_
    · intro e he
      obtain ⟨m, -, rfl⟩ := List.mem_map.mp he
      exact ⟨_, rfl⟩
    · intro e he
      obtain ⟨e', he', hvalue⟩ := (Dict.mem_ofList he).2
      obtain ⟨m, hm, rfl⟩ := List.mem_map.mp he'
      rw [← hvalue]
      exact ih m hm

theorem isJson_of_parse {s : List Char} {d : Data} (h : parse s = .ok d) : d.IsJson maxDepth := by
  obtain ⟨t, -, hfits, rfl⟩ := (parse_eq_ok_iff s d).mp h
  rw [← hasNumber_eq] at hfits
  exact isJson_data hfits

end JsonAssert
