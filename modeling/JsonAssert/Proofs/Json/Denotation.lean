import JsonAssert.Proofs.Data.Merging
import JsonAssert.Proofs.Json.Unambiguity
import JsonAssert.Proofs.Shape

/-! What is decoded is what the text denotes. The phrase of a text denotes one piece of data, and the
blanks in the text have no part in it. -/
namespace JsonAssert
open Grammar Json

namespace Grammar

/-- A key is compared with its escapes resolved. -/
def keyOf (pieces : List Piece) : Key := .text (.ofList (characters pieces))

/-- What a phrase denotes, part by part. -/
inductive Denotes : Phrase → Data → Prop
  | null : Denotes (.literal .null) .null
  | true : Denotes (.literal .true) (.bool Bool.true)
  | false : Denotes (.literal .false) (.bool Bool.false)
  | numeral {n : Numeral} {x : Number} : n.number? = some x → Denotes (.numeral n) (.number x)
  | string (pieces : List Piece) :
      Denotes (.string pieces) (.text (.ofList (characters pieces)))
  | array {items : List Phrase} {elements : List Data} : List.Forall₂ Denotes items elements →
      Denotes (.array items) (.list elements)
  | object {members : List (List Piece × Phrase)} {values : List Data} {d : Dict Data} :
      List.Forall₂ Denotes (members.map (·.2)) values →
      Dict.IsMerged ((members.map fun m => keyOf m.1).zip values) d →
      Denotes (.object members) (.dict d)

theorem eq_map_of_forall₂ {α β : Type} {R : α → β → Prop} {f : α → β} {xs : List α} {ys : List β}
    (hxs : ∀ x ∈ xs, ∀ y, R x y → y = f x) (h : List.Forall₂ R xs ys) : ys = xs.map f := by
  induction h with
  | nil => rfl
  | cons hxy _ ih =>
    obtain ⟨hx, hmore⟩ := List.forall_mem_cons.mp hxs
    rw [List.map_cons, ← hx _ hxy, ← ih hmore]

theorem zip_keys_values (members : List (List Piece × Phrase)) :
    (members.map fun m => keyOf m.1).zip ((members.map (·.2)).map Phrase.data) =
      members.map entry := by
  rw [List.map_map, List.zip_map']
  rfl

theorem hasTextKeys_entries (members : List (List Piece × Phrase)) :
    Dict.HasTextKeys (members.map entry) := by
  intro e he
  obtain ⟨m, -, rfl⟩ := List.mem_map.mp he
  exact ⟨_, rfl⟩

theorem eq_data_of_denotes {t : Phrase} {d : Data} (h : Denotes t d) : d = t.data := by
  induction t using Phrase.induction_parts generalizing d with
  | literal l => cases h <;> rfl
  | numeral n =>
    cases h with
    | numeral hx => rw [Phrase.data, hx, Option.getD_some]
  | string pieces =>
    cases h
    rfl
  | array items ih =>
    cases h with
    | array hitems =>
      rw [Phrase.data, dataOfItems_eq_map, eq_map_of_forall₂ (fun t ht d => ih t ht) hitems]
  | object members ih =>
    cases h with
    | object hvalues hmerged =>
      have hall : ∀ t ∈ members.map (·.2), ∀ d, Denotes t d → d = t.data := by
        intro t ht d hd
        obtain ⟨m, hm, rfl⟩ := List.mem_map.mp ht
        exact ih m hm hd
      rw [eq_map_of_forall₂ hall hvalues, zip_keys_values] at hmerged
      rw [Phrase.data, dataOfMembers_eq_map,
        hmerged.eq (Dict.isMerged_ofList (hasTextKeys_entries members))]

theorem denotes_data {S : List Piece → Prop} {depth : ℕ} {t : Phrase}
    (h : t.Fits S HasNumber depth) : Denotes t t.data := by
  induction h with
  | literal l => cases l <;> constructor
  | numeral hnumber =>
    obtain ⟨x, hx⟩ := hnumber
    rw [Phrase.data, hx]
    exact .numeral hx
  | string _ => exact .string _
  | array _ ih =>
    rw [Phrase.data, dataOfItems_eq_map]
    refine .array ?_
    rw [List.forall₂_map_right_iff, List.forall₂_same]
    exact ih
  | @object depth members _ _ ih =>
    have hvalues : List.Forall₂ Denotes (members.map (·.2)) ((members.map (·.2)).map Phrase.data) := by
      rw [List.forall₂_map_right_iff, List.forall₂_same]
      intro t ht
      obtain ⟨m, hm, rfl⟩ := List.mem_map.mp ht
      exact ih m hm
    rw [Phrase.data, dataOfMembers_eq_map]
    refine .object hvalues ?_
    rw [zip_keys_values]
    exact Dict.isMerged_ofList (hasTextKeys_entries members)

/-- A phrase within the limits denotes its data and nothing else. -/
theorem denotes_iff {S : List Piece → Prop} {depth : ℕ} {t : Phrase} (h : t.Fits S HasNumber depth)
    (d : Data) : Denotes t d ↔ d = t.data :=
  ⟨eq_data_of_denotes, fun hd => hd ▸ denotes_data h⟩

end Grammar

/-! Sources -/

theorem Source.parse_of_characters {source : Source} {s : List Char}
    (h : source.characters = .ok s) : source.parse = Json.parse s := by
  simp only [parse, h]

theorem Source.exists_characters {source : Source} {d : Data} (h : source.parse = .ok d) :
    ∃ s, source.characters = .ok s ∧ Json.parse s = .ok d := by
  unfold parse at h
  split at h
  · next s hs => exact ⟨s, hs, h⟩
  · cases h

theorem outcome_decodeObject_eq_ok_iff {source : Source} {d : Data} (h : source.parse = .ok d)
    (record : Record) : (decodeObject source).outcome = .ok record ↔ d = .dict record := by
  rw [decodeObject, outcome_decodeWith, h]
  cases d <;> simp [Data.asRecord, Except.mapError]

theorem outcome_decodeArray_eq_ok_iff {source : Source} {d : Data} (h : source.parse = .ok d)
    (records : List Record) :
    (decodeArray source).outcome = .ok records ↔ d = .list (records.map .dict) := by
  have hok {x : Except Mismatch (List Record)} :
      x.mapError DecodeError.mismatch = .ok records ↔ x = .ok records := by
    cases x <;> simp [Except.mapError]
  rw [decodeArray, outcome_decodeWith, h]
  simp only [hok]
  cases d with
  | list items => simp [Data.asRecords, recordsFrom_eq_ok_iff]
  | _ => simp [Data.asRecords]

theorem outcome_decode_eq_ok_iff {source : Source} {d : Data} (h : source.parse = .ok d)
    (records : List Record) :
    (decode source).outcome = .ok records ↔
      d = .list (records.map .dict) ∨ ∃ record, records = [record] ∧ d = .dict record := by
  rw [← Data.asDocument_eq_ok_iff, outcome_decode_of_parse h]
  cases d.asDocument <;> simp [Except.mapError]

/-- A source that is read has one phrase, and what is read is what this phrase denotes. Other blanks
between its tokens make no difference, and decoding hands the data out as it is. -/
theorem decoded_data_denoted {source : Source} {d : Data} (h : source.parse = .ok d) :
    ∃ s t, source.characters = .ok s ∧ IsText t s ∧ (∀ t', IsText t' s → t' = t) ∧
      (∀ d', Denotes t d' ↔ d' = d) ∧
      (∀ (other : Source) (s' : List Char), other.characters = .ok s' → IsText t s' →
        other.parse = .ok d) ∧
      (∀ record, (decodeObject source).outcome = .ok record ↔ d = .dict record) ∧
      (∀ records, (decodeArray source).outcome = .ok records ↔ d = .list (records.map .dict)) ∧
      ∀ records, (decode source).outcome = .ok records ↔
        d = .list (records.map .dict) ∨ ∃ record, records = [record] ∧ d = .dict record := by
  obtain ⟨s, hs, hparse⟩ := Source.exists_characters h
  obtain ⟨t, ht, hfits, rfl⟩ := (parse_eq_ok_iff s d).mp hparse
  have hnumbers := hfits
  rw [← hasNumber_eq] at hnumbers
  refine ⟨s, t, hs, ht, fun t' ht' => text_determined ht' ht, denotes_iff hnumbers, ?_,
    outcome_decodeObject_eq_ok_iff h, outcome_decodeArray_eq_ok_iff h,
    outcome_decode_eq_ok_iff h⟩
  intro other s' hs' ht'
  rw [Source.parse_of_characters hs']
  exact (parse_eq_ok_iff s' t.data).mpr ⟨t, ht', hfits, rfl⟩

/-- One key in two spellings, with another one between them. -/
theorem decoded_data_denoted_repeatedKey :
    let source : Source := .text "\x7b\"a\":true, \"b\":null, \"\\u0061\":[null]\x7d"
    let record : Record := [(.text "a", .list [.null]), (.text "b", .null)]
    source.parse = .ok (.dict record) ∧ (decodeObject source).outcome = .ok record ∧
      ∃ s t, source.characters = .ok s ∧ IsText t s ∧ Denotes t (.dict record) := by
  intro source record
  have hparse : source.parse = .ok (.dict record) := by with_unfolding_all rfl
  obtain ⟨s, t, hs, ht, -, hdenotes, -, hobject, -⟩ := decoded_data_denoted hparse
  exact ⟨hparse, (hobject record).mpr rfl, s, t, hs, ht, (hdenotes _).mpr rfl⟩

end JsonAssert
