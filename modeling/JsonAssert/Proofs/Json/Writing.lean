import JsonAssert.Proofs.Decoding
import JsonAssert.Proofs.Json.NumeralWriting
import JsonAssert.Proofs.Json.StringWriting
import JsonAssert.Proofs.Text.Utf8

/-! Writing data as JSON without spaces, and reading it back. -/
namespace JsonAssert
open Grammar Json

/-- A key as JSON; keys that are no text have no place in it. -/
def Key.written : Key → List Char
  | .text s => Quoted.encode s.toList
  | _ => []

namespace Data

mutual
def written : Data → List Char
  | .null => Literal.null.spelling
  | .bool b => (if b then Literal.true else Literal.false).spelling
  | .number n => n.text.toList
  | .text s => Quoted.encode s.toList
  | .list items => '[' :: ([','].intercalate (writtenItems items) ++ [']'])
  | .dict entries => '\x7b' :: ([','].intercalate (writtenEntries entries) ++ ['\x7d'])
  | .other _ => []

def writtenItems : List Data → List (List Char)
  | [] => []
  | d :: items => d.written :: writtenItems items

def writtenEntries : List (Key × Data) → List (List Char)
  | [] => []
  | (k, d) :: entries => (k.written ++ [':'] ++ d.written) :: writtenEntries entries
end

def writtenEntry (e : Key × Data) : List Char := e.1.written ++ [':'] ++ e.2.written

theorem writtenItems_eq_map (items : List Data) : writtenItems items = items.map written := by
  induction items with
  | nil => rfl
  | cons d items ih => rw [writtenItems, ih, List.map_cons]

theorem writtenEntries_eq_map (entries : List (Key × Data)) :
    writtenEntries entries = entries.map writtenEntry := by
  induction entries with
  | nil => rfl
  | cons e entries ih =>
    rw [List.map_cons, ← ih]
    rfl

end Data

/-! Phrases of the written form -/

theorem isSeparated_intercalate {α β : Type} {IsItem : β → List Char → Prop} {f : α → β}
    {g : α → List Char} {xs : List α} (hne : xs ≠ []) (h : ∀ x ∈ xs, IsItem (f x) (g x)) :
    IsSeparated IsItem (xs.map f) ([','].intercalate (xs.map g)) := by
  induction xs with
  | nil => exact absurd rfl hne
  | cons x xs ih =>
    have hx := h x List.mem_cons_self
    cases xs with
    | nil =>
      rw [List.map_singleton, List.map_singleton, List.intercalate_singleton]
      exact .one hx
    | cons y ys =>
      have hmore := ih (List.cons_ne_nil y ys) fun z hz => h z (List.mem_cons_of_mem x hz)
      simp only [List.map_cons, List.intercalate_cons_cons] at hmore ⊢
      exact .more hx (mark_cons isBlank_nil) hmore

theorem isMember_written {key : Key} {s : String} (hkey : key = .text s) {t : Phrase} {d : Data}
    (ht : IsValue t d.written) :
    IsMember IsValue (s.toList.map Quoted.piece, t) (Data.writtenEntry (key, d)) := by
  rw [Data.writtenEntry, hkey]
  exact .mk (Quoted.isString_encode s.toList) (mark_cons isBlank_nil) ht

namespace Data

/-- The phrase stands for the data and is spelled as the data is written. -/
def HasPhrase (depth : ℕ) (d : Data) (t : Phrase) : Prop :=
  IsValue t d.written ∧ t.Fits IsPaired HasNumber depth ∧ t.data = d

theorem hasPhrase_list {depth : ℕ} {items : List Data} {f : Data → Phrase}
    (hf : ∀ d ∈ items, HasPhrase depth d (f d)) :
    HasPhrase (depth + 1) (.list items) (.array (items.map f)) := by
  refine ⟨?_, .array ?_, ?_⟩
  · rw [written, writtenItems_eq_map]
    by_cases hne : items = []
    · have hempty : IsValue (.array []) (['['] ++ [']']) :=
        .emptyArray (mark_cons isBlank_nil) (mark_cons isBlank_nil)
      rw [hne]
      exact hempty
    · exact .array (mark_cons isBlank_nil)
        (isSeparated_intercalate hne fun d hd => (hf d hd).1) (mark_cons isBlank_nil)
  · intro t ht
    obtain ⟨d, hd, rfl⟩ := List.mem_map.mp ht
    exact (hf d hd).2.1
  · have hdata : items.map (fun d => (f d).data) = items :=
      (List.map_congr_left fun d hd => (hf d hd).2.2).trans (List.map_id items)
    rw [Phrase.data, dataOfItems_eq_map, List.map_map]
    exact congrArg _ hdata

theorem hasPhrase_dict {depth : ℕ} {entries : List (Key × Data)} {f : Key × Data → Phrase}
    (htext : ∀ e ∈ entries, ∃ s, e.1 = .text s) (hnodup : (entries.map (·.1)).Nodup)
    (hf : ∀ e ∈ entries, HasPhrase depth e.2 (f e)) :
    ∃ t, HasPhrase (depth + 1) (.dict entries) t := by
  choose! s hs using htext
  let member (e : Key × Data) : List Piece × Phrase := ((s e).toList.map Quoted.piece, f e)
  refine ⟨.object (entries.map member), ?_, .object ?_ ?_, ?_⟩
  · rw [written, writtenEntries_eq_map]
    by_cases hne : entries = []
    · have hempty : IsValue (.object []) (['\x7b'] ++ ['\x7d']) :=
        .emptyObject (mark_cons isBlank_nil) (mark_cons isBlank_nil)
      rw [hne]
      exact hempty
    · exact .object (mark_cons isBlank_nil)
        (isSeparated_intercalate hne fun e he => isMember_written (hs e he) (hf e he).1)
        (mark_cons isBlank_nil)
  · intro m hm
    obtain ⟨e, -, rfl⟩ := List.mem_map.mp hm
    exact Quoted.isPaired_pieces _
  · intro m hm
    obtain ⟨e, he, rfl⟩ := List.mem_map.mp hm
    exact (hf e he).2.1
  · have hentry : ∀ e ∈ entries, entry (member e) = e := by
      intro e he
      rw [entry, Quoted.characters_pieces, String.ofList_toList, ← hs e he, (hf e he).2.2]
    have hdata : (entries.map member).map entry = entries := by
      rw [List.map_map]
      exact (List.map_congr_left hentry).trans (List.map_id entries)
    rw [Phrase.data, dataOfMembers_eq_map, hdata, Dict.ofList_of_distinct]
    exact Dict.distinct_of_nodup (fun e he => ⟨s e, hs e he⟩) hnodup

/-- JSON data has a phrase that is spelled as the data is written. -/
theorem IsJson.exists_phrase {depth : ℕ} {d : Data} (h : d.IsJson depth) :
    ∃ t, HasPhrase depth d t := by
  induction h with
  | null => exact ⟨.literal .null, .literal .null, .literal .null, rfl⟩
  | bool b =>
    cases b with
    | false => exact ⟨.literal .false, .literal .false, .literal .false, rfl⟩
    | true => exact ⟨.literal .true, .literal .true, .literal .true, rfl⟩
  | number hn =>
    obtain ⟨n, hspelling, hnumber⟩ := hn.exists_numeral
    refine ⟨.numeral n, .numeral hspelling, .numeral ⟨_, hnumber⟩, ?_⟩
    rw [Phrase.data, hnumber, Option.getD_some]
  | text s =>
    refine ⟨.string (s.toList.map Quoted.piece), .string (Quoted.isString_encode _),
      .string (Quoted.isPaired_pieces _), ?_⟩
    rw [Phrase.data, Quoted.characters_pieces, String.ofList_toList]
  | list _ ih =>
    choose! f hf using ih
    exact ⟨_, hasPhrase_list hf⟩
  | dict htext hnodup _ ih =>
    choose! f hf using ih
    exact hasPhrase_dict htext hnodup hf

theorem IsJson.parse_written {d : Data} (h : d.IsJson maxDepth) : parse d.written = .ok d := by
  obtain ⟨t, ht, hfits, hdata⟩ := h.exists_phrase
  rw [hasNumber_eq] at hfits
  have htext := IsText.mk isBlank_nil ht isBlank_nil
  rw [List.append_nil, List.nil_append] at htext
  exact (parse_eq_ok_iff _ _).mpr ⟨t, htext, hfits, hdata⟩

end Data

/-! Reading back -/

/-- A source whose characters are the written form of data decodes to what is accepted of it. -/
theorem outcome_decodeWith_written {α : Type} {name : String}
    {accept : Data → Except Mismatch α} {source : Source} {d : Data} {x : α}
    (h : d.IsJson maxDepth) (hsource : source.characters = .ok d.written)
    (haccept : accept d = .ok x) : (decodeWith name accept source).outcome = .ok x := by
  rw [outcome_decodeWith, Source.parse, hsource]
  simp only [h.parse_written, haccept]
  rfl

/-- Decoding the written form of an object, or of an array of objects, gives it back, from
characters and from bytes. -/
theorem decode_written :
    (∀ entries : Record, (Data.dict entries).IsJson maxDepth →
      (decodeObject (.text (.ofList (Data.dict entries).written))).outcome = .ok entries ∧
      (decodeObject (.bytes (Utf8.encode (Data.dict entries).written))).outcome = .ok entries) ∧
    (∀ records : List Record, (Data.list (records.map .dict)).IsJson maxDepth →
      (decodeArray (.text (.ofList (Data.list (records.map .dict)).written))).outcome =
        .ok records ∧
      (decodeArray (.bytes (Utf8.encode (Data.list (records.map .dict)).written))).outcome =
        .ok records) := by
  have htext (s : List Char) : (Source.text (.ofList s)).characters = .ok s := by
    rw [Source.characters, String.toList_ofList]
  have hbytes (s : List Char) : (Source.bytes (Utf8.encode s)).characters = .ok s :=
    Utf8.decode_encode s
  constructor
  · intro entries h
    constructor
    · exact outcome_decodeWith_written h (htext _) rfl
    · exact outcome_decodeWith_written h (hbytes _) rfl
  · intro records h
    have haccept : (Data.list (records.map .dict)).asRecords = .ok records :=
      recordsFrom_eq_ok_iff.mpr rfl
    constructor
    · exact outcome_decodeWith_written h (htext _) haccept
    · exact outcome_decodeWith_written h (hbytes _) haccept

/-- An object with a list of a negative zero and null, alone and in an array. -/
theorem decode_written_negativeZero :
    let record : Record := [(.text "a", .list [.number (.float (.zero true)), .null])]
    (Data.dict record).IsJson maxDepth ∧
      (decodeObject (.text (.ofList (Data.dict record).written))).outcome = .ok record ∧
      (Data.list ([record].map .dict)).IsJson maxDepth ∧
      (decodeArray (.bytes (Utf8.encode (Data.list ([record].map .dict)).written))).outcome =
        .ok [record] := by
  intro record
  have hzero : (Number.float (.zero true)).IsJson := .float _
  have hitems (depth : ℕ) : (Data.list [.number (.float (.zero true)), .null]).IsJson (depth + 1) :=
    .list fun d hd => by
      rcases List.mem_pair.mp hd with rfl | rfl
      · exact .number hzero
      · exact .null
  have hrecord (depth : ℕ) : (Data.dict record).IsJson (depth + 2) :=
    .dict (fun e he => ⟨"a", by rw [List.mem_singleton.mp he]⟩) (List.nodup_singleton _)
      fun e he => by
        rw [List.mem_singleton.mp he]
        exact hitems depth
  have hrecords : (Data.list ([record].map .dict)).IsJson maxDepth :=
    .list fun d hd => by
      rw [List.mem_singleton.mp hd]
      exact hrecord 1021
  exact ⟨hrecord 1022, (decode_written.1 record (hrecord 1022)).1, hrecords,
    (decode_written.2 [record] hrecords).2⟩

end JsonAssert
