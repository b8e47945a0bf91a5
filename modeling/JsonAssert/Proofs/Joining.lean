import JsonAssert.Proofs.Assertion.Generation

/-! Objects joined to an array. The texts of some objects, with commas between them and brackets
around them, are a text for the array of these objects, and what is generated for it is what is
generated for each object from its own place. -/
namespace JsonAssert
open Grammar Json

theorem Grammar.Phrase.Fits.mono {S : List Piece → Prop} {N : Numeral → Prop} {depth depth' : ℕ}
    {t : Phrase} (h : t.Fits S N depth) (hle : depth ≤ depth') : t.Fits S N depth' := by
  induction h generalizing depth' with
  | literal l => exact .literal l
  | numeral hn => exact .numeral hn
  | string hs => exact .string hs
  | array _ ih =>
    obtain ⟨k, rfl⟩ : ∃ k, depth' = k + 1 := ⟨depth' - 1, by omega⟩
    exact .array fun t ht => ih t ht (by omega)
  | object hkeys _ ih =>
    obtain ⟨k, rfl⟩ : ∃ k, depth' = k + 1 := ⟨depth' - 1, by omega⟩
    exact .object hkeys fun m hm => ih m hm (by omega)

namespace Json

/-! Texts of bounded depth -/

/-- The text is acceptable, and its containers nest at most so deep. -/
def IsAcceptableWithin (depth : ℕ) (s : List Char) : Prop :=
  ∃ t : Phrase, IsText t s ∧ t.Fits IsPaired (¬ ·.Overflows) depth

theorem StandsForWithin.isAcceptableWithin {depth : ℕ} {s : List Char} {d : Data}
    (h : StandsForWithin depth s d) : IsAcceptableWithin depth s := by
  obtain ⟨t, ht, hfits, -⟩ := h
  exact ⟨t, ht, hfits⟩

theorem standsForWithin_of_parse {depth : ℕ} {s : List Char} {d : Data} (hdepth : depth ≤ maxDepth)
    (h : IsAcceptableWithin depth s) (hparse : parse s = .ok d) : StandsForWithin depth s d := by
  obtain ⟨t, ht, hfits⟩ := h
  have hdata : parse s = .ok t.data :=
    (parse_eq_ok_iff s t.data).mpr ⟨t, ht, hfits.mono hdepth, rfl⟩
  exact ⟨t, ht, hfits, Except.ok.inj (hdata.symm.trans hparse)⟩

/-! Elements -/

/-- The text stands between the brackets of an array for its elements. -/
def IsElements (depth : ℕ) (s : List Char) (ds : List Data) : Prop :=
  ∃ phrases before front after, s = before ++ front ++ after ∧ IsBlank before ∧
    IsSeparated IsValue phrases front ∧ IsBlank after ∧
    (∀ t ∈ phrases, t.Fits IsPaired (¬ ·.Overflows) depth) ∧ phrases.map Phrase.data = ds

variable {depth : ℕ} {s s' : List Char} {d : Data} {ds : List Data}

theorem isElements_one (h : StandsForWithin depth s d) : IsElements depth s [d] := by
  obtain ⟨t, ⟨hbefore, ht, hafter⟩, hfits, rfl⟩ := h
  exact ⟨[t], _, _, _, rfl, hbefore, .one ht, hafter, by simpa using hfits, rfl⟩

/-- The blanks on both sides of a comma belong to the comma. -/
theorem IsElements.cons (h : StandsForWithin depth s d) (hmore : IsElements depth s' ds) :
    IsElements depth (s ++ [','] ++ s') (d :: ds) := by
  obtain ⟨t, ⟨hbefore, ht, hafter⟩, hfits, rfl⟩ := h
  next before front after =>
  obtain ⟨phrases, before', front', after', rfl, hbefore', hphrases, hafter', hfits', rfl⟩ := hmore
  have hcomma : IsMark ',' (after ++ ',' :: before') := .mk hafter hbefore'
  exact ⟨t :: phrases, before, front ++ (after ++ ',' :: before') ++ front', after', by simp,
    hbefore, .more ht hcomma hphrases, hafter', List.forall_mem_cons.mpr ⟨hfits, hfits'⟩, rfl⟩

theorem isElements_intercalate {texts : List (List Char)} (hne : texts ≠ [])
    (h : List.Forall₂ (StandsForWithin depth) texts ds) :
    IsElements depth ([','].intercalate texts) ds := by
  induction h with
  | nil => exact absurd rfl hne
  | @cons s d texts ds hd hmore ih =>
    cases hmore with
    | nil =>
      rw [List.intercalate_singleton]
      exact isElements_one hd
    | cons _ _ =>
      rw [List.intercalate_cons_cons]
      exact .cons hd (ih (List.cons_ne_nil _ _))

theorem IsElements.array (h : IsElements depth s ds) :
    StandsForWithin (depth + 1) ('[' :: (s ++ [']'])) (.list ds) := by
  obtain ⟨phrases, before, front, after, rfl, hbefore, hphrases, hafter, hfits, rfl⟩ := h
  have hstart : IsMark '[' ('[' :: before) := mark_cons hbefore
  have hclose : IsMark ']' (after ++ [']']) := .mk hafter isBlank_nil
  have htext : IsText (.array phrases) ([] ++ ('[' :: before ++ front ++ (after ++ [']'])) ++ []) :=
    .mk isBlank_nil (.array hstart hphrases hclose) isBlank_nil
  refine ⟨.array phrases, by simpa using htext, .array hfits, ?_⟩
  rw [Phrase.data, dataOfItems_eq_map]

end Json

/-! Arrays of objects -/

/-- The text of an array, from those of its elements. -/
def joined (texts : List String) : String := "[" ++ ",".intercalate texts ++ "]"

theorem toList_joined (texts : List String) :
    (joined texts).toList = '[' :: ([','].intercalate (texts.map String.toList) ++ [']']) := by
  simp [joined]

theorem parse_of_decodeObject {source : Source} {record : Record}
    (h : (decodeObject source).outcome = .ok record) : source.parse = .ok (.dict record) := by
  rw [decodeObject, outcome_decodeWith] at h
  cases hparse : source.parse with
  | error report => simp [hparse] at h
  | ok d =>
    rw [hparse] at h
    cases d with
    | dict entries => simpa [Data.asRecord, Except.mapError] using h
    | _ => simp [Data.asRecord, Except.mapError] at h

/-- The text decodes to one object, and its containers nest less deep than any may. -/
def HoldsObject (text : String) (record : Record) : Prop :=
  (decodeObject (.text text)).outcome = .ok record ∧ IsAcceptableWithin 1023 text.toList

theorem parse_joined {texts : List String} {records : List Record} (hne : texts ≠ [])
    (h : List.Forall₂ HoldsObject texts records) :
    (Source.text (joined texts)).parse = .ok (.list (records.map .dict)) := by
  have helements : List.Forall₂ (StandsForWithin 1023) (texts.map String.toList)
      (records.map .dict) := by
    rw [List.forall₂_map_left_iff, List.forall₂_map_right_iff]
    apply h.imp
    rintro text record ⟨hdecode, hwithin⟩
    exact standsForWithin_of_parse (by decide) hwithin (parse_of_decodeObject hdecode)
  have hlist := isElements_intercalate (by simpa using hne) helements
  rw [Source.parse_text, toList_joined]
  exact (parse_eq_ok_iff _ _).mpr hlist.array

/-! What is generated -/

theorem forall₂_zipIdx {α β : Type} {R : α → β → Prop} {xs : List α} {ys : List β}
    (h : List.Forall₂ R xs ys) (n : ℕ) :
    List.Forall₂ (fun x y => R x.1 y.1 ∧ x.2 = y.2) (xs.zipIdx n) (ys.zipIdx n) := by
  induction h generalizing n with
  | nil => exact .nil
  | cons hxy _ ih => exact .cons ⟨hxy, rfl⟩ (ih (n + 1))

/-- The values of the objects, and each text with the one that it holds. -/
theorem exists_joinedValues {texts : List String} {records : List Record} (hne : texts ≠ [])
    (h : List.Forall₂ HoldsObject texts records) :
    ∃ values : List Value, values.map Value.data = records.map .dict ∧
      List.Forall₂ (fun text v => ∃ record, v.data = .dict record ∧
        (Source.text text).parse = .ok (.dict record)) texts values := by
  have hdocument : (Data.list (records.map .dict)).asDocument = .ok records :=
    Data.asDocument_eq_ok_iff.mpr (.inl rfl)
  have hjson := Source.isJson_of_parse (parse_joined hne h)
  obtain ⟨values, hvalues⟩ := exists_recordValues hjson.isWellFormed hdocument
  have htexts : List.Forall₂ (fun text (d : Data) => ∃ record, d = .dict record ∧
      (Source.text text).parse = .ok (.dict record)) texts (records.map .dict) := by
    rw [List.forall₂_map_right_iff]
    apply h.imp
    rintro text record ⟨hdecode, -⟩
    exact ⟨record, rfl, parse_of_decodeObject hdecode⟩
  rw [← hvalues, List.forall₂_map_right_iff] at htexts
  exact ⟨values, hvalues, htexts⟩

/-- Texts that decode to one object each, and leave room for a bracket around them, are joined to a
text that decodes to all of the objects; and its code is that of each text, one after the other,
from the expression for its element. -/
theorem joined_objects_compose {texts : List String} {records : List Record} (hne : texts ≠ [])
    (h : List.Forall₂ HoldsObject texts records) :
    (decodeArray (.text (joined texts))).outcome = .ok records ∧
      ∀ root, ∃ codes,
        List.Forall₂ (fun (t : String × ℕ) code =>
          (generateFrom (.text t.1) (subscripted root (.int t.2))).outcome = .ok code)
          texts.zipIdx codes ∧
        (generateFrom (.text (joined texts)) root).outcome = .ok (String.join codes) := by
  have hparse := parse_joined hne h
  constructor
  · rw [decodeArray, outcome_decodeWith, hparse]
    simp only [Data.asRecords, recordsFrom_map_dict]
    rfl
  · intro root
    obtain ⟨values, hvalues, htexts⟩ := exists_joinedValues hne h
    refine ⟨(valueTargets values true root).map fun e => unlines (Value.lines e), ?_, ?_⟩
    · rw [valueTargets, if_pos rfl, List.map_map, List.forall₂_map_right_iff]
      apply (forall₂_zipIdx htexts 0).imp
      rintro ⟨text, i⟩ ⟨v, j⟩ ⟨⟨record, hv, htext⟩, rfl⟩
      exact outcome_generateFrom_object htext hv _
    · rw [outcome_generateFrom_array hparse hvalues, unlines_flatMap]

/-- Two objects with blanks around them, of which one holds a bracket and the other is empty. -/
theorem joined_objects_compose_blanks :
    let texts := [" \x7b\"[\":null\x7d\n", "\t\x7b\x7d"]
    let records : List Record := [[(.text "[", .null)], []]
    texts ≠ [] ∧ List.Forall₂ HoldsObject texts records ∧
      joined texts = "[ \x7b\"[\":null\x7d\n,\t\x7b\x7d]" ∧
      (decodeArray (.text (joined texts))).outcome = .ok records := by
  intro texts records
  have hfirst : HoldsObject " \x7b\"[\":null\x7d\n" [(.text "[", .null)] := by
    refine ⟨by with_unfolding_all rfl, ?_⟩
    have hread : value 12 1023 (skipBlanks " \x7b\"[\":null\x7d\n".toList) =
        .ok (.dict [(.text "[", .null)], ['\n']) := by with_unfolding_all rfl
    exact (standsForWithin_of_value hread rfl).isAcceptableWithin
  have hsecond : HoldsObject "\t\x7b\x7d" [] := by
    refine ⟨rfl, ?_⟩
    have hread : value 3 1023 (skipBlanks "\t\x7b\x7d".toList) = .ok (.dict [], []) := rfl
    exact (standsForWithin_of_value hread rfl).isAcceptableWithin
  have htexts : List.Forall₂ HoldsObject texts records := .cons hfirst (.cons hsecond .nil)
  have hne : texts ≠ [] := List.cons_ne_nil _ _
  exact ⟨hne, htexts, by decide, (joined_objects_compose hne htexts).1⟩

end JsonAssert
