import JsonAssert.Proofs.Shape

/-! Documents that are cut short or run on. A bracket or a brace shows where a value ends, so no text
that decodes is the beginning of another one, blanks apart. -/
namespace JsonAssert
open Grammar Json

theorem Grammar.IsText.append_blank {t : Phrase} {s b : List Char} (h : IsText t s)
    (hb : IsBlank b) : IsText t (s ++ b) := by
  obtain ⟨hbefore, ht, hafter⟩ := h
  next before front after =>
  rw [List.append_assoc]
  exact .mk hbefore ht (List.forall_mem_append.mpr ⟨hafter, hb⟩)

/-! Values that show their end -/

/-- Data that is written between brackets or braces. -/
def Data.IsContainer : Data → Prop
  | .list _ | .dict _ => True
  | _ => False

/-- A document is a container. -/
theorem Data.isContainer_of_asDocument {d : Data} {records : List Record}
    (h : d.asDocument = .ok records) : d.IsContainer := by
  rcases Data.asDocument_eq_ok_iff.mp h with rfl | ⟨record, -, rfl⟩ <;> trivial

/-- The mark that ends an array or an object. -/
def IsClosing (c : Char) : Prop := c = ']' ∨ c = '\x7d'

namespace Json

/-- A container is taken whatever follows it. -/
theorem container_takes {rounds depth : ℕ} {t : Phrase} {s : List Char}
    (hdata : t.data.IsContainer) (hfits : t.Fits IsPaired HasNumber depth) (h : IsValue t s)
    (hrounds : s.length ≤ rounds) : TakesAlways (value rounds depth) s t.data := by
  cases hfits with
  | literal l => cases l <;> exact absurd hdata id
  | numeral _ => exact absurd hdata id
  | string _ => exact absurd hdata id
  | array hitems =>
    exact arrayPhrase_takes h hrounds fun t ht s' hs' hvalue => value_takes (hitems t ht) hvalue hs'
  | object hkeys hmembers =>
    exact objectPhrase_takes h hrounds hkeys
      fun m hm s' hs' hvalue => value_takes (hmembers m hm) hvalue hs'

/-- A mark at the end of a text is the last of its characters but blanks. -/
theorem exists_last_of_mark {mark : Char} {s close : List Char} (h : IsMark mark close) :
    ∃ body after, s ++ close = body ++ mark :: after ∧ IsBlank after := by
  obtain ⟨-, hafter⟩ := h
  next before after => exact ⟨s ++ before, after, by simp, hafter⟩

/-- The last character of a container closes it. -/
theorem exists_closing {t : Phrase} {s : List Char} (hdata : t.data.IsContainer)
    (h : IsValue t s) :
    ∃ body c after, s = body ++ c :: after ∧ IsClosing c ∧ IsBlank after := by
  cases h with
  | literal l => cases l <;> exact absurd hdata id
  | numeral _ => exact absurd hdata id
  | string _ => exact absurd hdata id
  | emptyArray _ hclose | array _ _ hclose =>
    obtain ⟨body, after, hs, hafter⟩ := exists_last_of_mark hclose
    exact ⟨body, ']', after, hs, .inl rfl, hafter⟩
  | emptyObject _ hclose | object _ _ hclose =>
    obtain ⟨body, after, hs, hafter⟩ := exists_last_of_mark hclose
    exact ⟨body, '\x7d', after, hs, .inr rfl, hafter⟩

/-- A text for a container ends, blanks apart, in the mark that closes it. -/
theorem exists_closing_of_parse {s : List Char} {d : Data} (hdata : d.IsContainer)
    (h : parse s = .ok d) :
    ∃ body c after, s = body ++ c :: after ∧ IsClosing c ∧ IsBlank after := by
  obtain ⟨t, ⟨-, ht, hafter⟩, -, rfl⟩ := (parse_eq_ok_iff s d).mp h
  next before front after =>
  obtain ⟨body, c, last, rfl, hc, hlast⟩ := exists_closing hdata ht
  exact ⟨before ++ body, c, last ++ after, by simp, hc, List.forall_mem_append.mpr ⟨hlast, hafter⟩⟩

/-- A text for a container is read in the same way at the front of a longer text, and what is read
next starts behind it. -/
theorem value_append {s : List Char} {d : Data} (hdata : d.IsContainer) (h : parse s = .ok d)
    {rounds : ℕ} (hrounds : s.length ≤ rounds) (more : List Char) :
    ∃ rest, value rounds maxDepth (skipBlanks (s ++ more)) = .ok (d, rest) ∧
      skipBlanks rest = skipBlanks more := by
  obtain ⟨t, ⟨hbefore, ht, hafter⟩, hfits, rfl⟩ := (parse_eq_ok_iff s d).mp h
  next before front after =>
  rw [← hasNumber_eq] at hfits
  have hlength : front.length ≤ rounds := by
    simp only [List.length_append] at hrounds
    omega
  obtain ⟨rest, hread, hrest⟩ := container_takes hdata hfits ht hlength (after ++ more)
  refine ⟨rest, ?_, ?_⟩
  · rw [List.append_assoc, List.append_assoc, skipBlanks_append hbefore]
    exact hread
  · rw [hrest, skipBlanks_append hafter]

/-- What follows a container in a text that is read is blank. -/
theorem isBlank_of_parse_append {s more : List Char} {d d' : Data} (hdata : d.IsContainer)
    (h : parse s = .ok d) (h' : parse (s ++ more) = .ok d') : IsBlank more ∧ d' = d := by
  have hlength : s.length ≤ (s ++ more).length := by simp
  obtain ⟨rest, hread, hrest⟩ := value_append hdata h hlength more
  obtain ⟨rest', hread', hblank⟩ := readsAs_of_standsFor le_rfl ((parse_eq_ok_iff _ _).mp h')
  rw [hread] at hread'
  obtain ⟨rfl, rfl⟩ : d = d' ∧ rest = rest' := by simpa using hread'
  exact ⟨isBlank_of_skipBlanks (hrest ▸ hblank), rfl⟩

end Json

/-! Decoding -/

/-- The text decodes to these records. -/
def Decodes (text : String) (records : List Record) : Prop :=
  (decode (.text text)).outcome = .ok records

theorem exists_container {text : String} {records : List Record} (h : Decodes text records) :
    ∃ d : Data, parse text.toList = .ok d ∧ d.IsContainer ∧ d.asDocument = .ok records := by
  obtain ⟨d, hparse, hrecords⟩ := exists_document h
  exact ⟨d, hparse, Data.isContainer_of_asDocument hrecords, hrecords⟩

theorem decodes_append {t s : String} {records records' : List Record} (h : Decodes t records)
    (h' : Decodes (t ++ s) records') : IsBlank s.toList ∧ records' = records := by
  obtain ⟨d, hparse, hdata, hrecords⟩ := exists_container h
  obtain ⟨d', hparse', -, hrecords'⟩ := exists_container h'
  rw [String.toList_append] at hparse'
  obtain ⟨hblank, rfl⟩ := isBlank_of_parse_append hdata hparse hparse'
  exact ⟨hblank, Except.ok.inj (hrecords'.symm.trans hrecords)⟩

/-- A text that decodes has lost nothing but blanks from its end. -/
theorem not_decodes_of_prefix {t p : String} {records : List Record} {body after : List Char}
    {c : Char} (h : Decodes t records) (ht : t.toList = body ++ c :: after) (hc : IsClosing c)
    (hp : p.toList <+: body) : ¬ ∃ records', Decodes p records' := by
  rintro ⟨records', h'⟩
  obtain ⟨lost, rfl⟩ := hp
  have hwhole : t = p ++ String.ofList (lost ++ c :: after) := by
    rw [← String.toList_inj, ht]
    simp
  have hblank := (decodes_append h' (hwhole ▸ h)).1 c (by simp)
  rcases hc with rfl | rfl <;> revert hblank <;> decide

/-- Blanks may follow a text that decodes. -/
theorem decodes_append_blank {t s : String} {records : List Record} (h : Decodes t records)
    (hs : IsBlank s.toList) : Decodes (t ++ s) records := by
  obtain ⟨d, hparse, -, hrecords⟩ := exists_container h
  obtain ⟨phrase, ht, hfits, hd⟩ := (parse_eq_ok_iff _ _).mp hparse
  have hlonger : (Source.text (t ++ s)).parse = .ok d := by
    rw [Source.parse_text, String.toList_append]
    exact (parse_eq_ok_iff _ _).mpr ⟨phrase, ht.append_blank hs, hfits, hd⟩
  rw [Decodes, outcome_decode_of_parse hlonger, hrecords]
  rfl

/-- Of two texts that decode, one of them the beginning of the other, the longer one has blanks more
and the same records. So a text that decodes ends, blanks apart, in a bracket or a brace, and no
beginning of it without that one decodes; and it goes on decoding exactly as long as nothing but
blanks is put behind it. -/
theorem decoded_text_ends :
    (∀ (t s : String) (records records' : List Record), Decodes t records →
        Decodes (t ++ s) records' → IsBlank s.toList ∧ records' = records) ∧
      (∀ (t : String) (records : List Record), Decodes t records →
        ∃ body c after, t.toList = body ++ c :: after ∧ IsClosing c ∧ IsBlank after ∧
          ∀ p : String, p.toList <+: body → ¬ ∃ records', Decodes p records') ∧
      ∀ (t s : String) (records : List Record), Decodes t records →
        ((∃ records', Decodes (t ++ s) records') ↔ IsBlank s.toList) := by
  refine ⟨fun t s records records' h h' => decodes_append h h', ?_, ?_⟩
  · intro t records h
    obtain ⟨d, hparse, hdata, -⟩ := exists_container h
    obtain ⟨body, c, after, ht, hc, hafter⟩ := exists_closing_of_parse hdata hparse
    exact ⟨body, c, after, ht, hc, hafter, fun p hp => not_decodes_of_prefix h ht hc hp⟩
  · intro t s records h
    constructor
    · rintro ⟨records', h'⟩
      exact (decodes_append h h').1
    · intro hs
      exact ⟨records, decodes_append_blank h hs⟩

/-- An object with a brace in a string, before a line feed and before another brace. -/
theorem decoded_text_ends_braceInString :
    let t := "\x7b\"a\":\"\x7d\"\x7d"
    let records : List Record := [[(.text "a", .text "\x7d")]]
    Decodes t records ∧ Decodes (t ++ "\n") records ∧ IsBlank "\n".toList ∧
      ¬ ∃ records', Decodes (t ++ "\x7d") records' := by
  intro t records
  have ht : Decodes "\x7b\"a\":\"\x7d\"\x7d" [[(.text "a", .text "\x7d")]] := by
    with_unfolding_all rfl
  have hlonger : Decodes (t ++ "\n") records := decodes_append_blank ht (by simp [IsBlank])
  have hbrace : ¬ IsBlank "\x7d".toList := by simp [IsBlank]
  obtain ⟨hends, -, hmore⟩ := decoded_text_ends
  exact ⟨ht, hlonger, (hends t "\n" records records ht hlonger).1,
    fun h => hbrace ((hmore t "\x7d" records ht).mp h)⟩

end JsonAssert
