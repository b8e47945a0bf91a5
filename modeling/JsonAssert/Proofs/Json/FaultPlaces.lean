import JsonAssert.Proofs.Decoding
import JsonAssert.Proofs.Json.Faults

/-! The places of faults. The offset of a report, its line and its column lead to one place of the
text, and the fault that was found starts there. -/
namespace JsonAssert.Json

/-! Lines of a text -/

/-- The lines of a text, without the line feeds between them. -/
def linesOf (text : List Char) : List (List Char) := text.splitOn '\n'

/-- The offset where a line starts. Each line before it takes its characters and a line feed. -/
def lineStart (text : List Char) (line : ℕ) : ℕ :=
  (((linesOf text).map fun l => l.length + 1).take (line - 1)).sum

def lineLength (text : List Char) (line : ℕ) : ℕ := ((linesOf text).getD (line - 1) []).length

/-- The place is one of the text, from its first character to behind its last one: it has the line,
the line has the column, or else ends in front of it, and the column counts from where the line
starts. -/
structure Place.IsIn (p : Place) (text : List Char) : Prop where
  offset_le : p.offset ≤ text.length
  line_pos : 1 ≤ p.line
  line_le : p.line ≤ (linesOf text).length
  column_pos : 1 ≤ p.column
  column_le : p.column ≤ lineLength text p.line + 1
  offset_eq : p.offset = lineStart text p.line + (p.column - 1)

theorem linesOf_of_not_mem {text : List Char} (h : '\n' ∉ text) : linesOf text = [text] :=
  List.splitOn_eq_singleton h

theorem linesOf_append {l : List Char} (h : '\n' ∉ l) (rest : List Char) :
    linesOf (l ++ '\n' :: rest) = l :: linesOf rest :=
  List.splitOn_append_cons_self_of_not_mem h rest

/-- Places on the first line. -/
theorem isIn_of_first {text l : List Char} {ls : List (List Char)} {offset : ℕ}
    (h : linesOf text = l :: ls) (hl : l.length ≤ text.length) (hoffset : offset ≤ l.length) :
    (⟨offset, 1, offset + 1⟩ : Place).IsIn text where
  offset_le := hoffset.trans hl
  line_pos := le_rfl
  line_le := by simp [h]
  column_pos := Nat.succ_pos _
  column_le := by simpa [lineLength, h] using hoffset
  offset_eq := by simp [lineStart]

/-- Another line in front moves a place down by one. -/
theorem Place.IsIn.below {p : Place} {rest : List Char} (h : p.IsIn rest) {l : List Char}
    (hl : '\n' ∉ l) :
    (⟨l.length + 1 + p.offset, p.line + 1, p.column⟩ : Place).IsIn (l ++ '\n' :: rest) := by
  have hline : p.line = p.line - 1 + 1 := (Nat.sub_add_cancel h.line_pos).symm
  have hlines := linesOf_append hl rest
  exact {
    offset_le := by
      have hoffset := h.offset_le
      rw [List.length_append, List.length_cons]
      dsimp only
      omega
    line_pos := Nat.succ_pos _
    line_le := by
      rw [hlines, List.length_cons]
      exact Nat.succ_le_succ h.line_le
    column_pos := h.column_pos
    column_le := by
      rw [lineLength, hlines, Nat.add_sub_cancel, hline, List.getD_cons_succ]
      exact h.column_le
    offset_eq := by
      have hstart : lineStart (l ++ '\n' :: rest) (p.line + 1) =
          l.length + 1 + lineStart rest p.line := by
        rw [lineStart, hlines, Nat.add_sub_cancel, hline, List.map_cons, List.take_succ_cons,
          List.sum_cons, ← hline]
        rfl
      have hoffset := h.offset_eq
      dsimp only
      omega }

/-! The place of an offset -/

theorem at_of_not_mem {text : List Char} {offset : ℕ} (hoffset : offset ≤ text.length)
    (h : '\n' ∉ text.take offset) : Place.at text offset = ⟨offset, 1, offset + 1⟩ := by
  have htake : (text.take offset).reverse.takeWhile (· != '\n') = (text.take offset).reverse := by
    rw [List.takeWhile_eq_self_iff]
    intro c hc
    rw [bne_iff_ne]
    rintro rfl
    exact h (List.mem_reverse.mp hc)
  unfold Place.at
  dsimp only
  rw [htake, List.count_eq_zero_of_not_mem h, List.length_reverse, List.length_take,
    Nat.min_eq_left hoffset]

/-- A place on a later line is what it is without the first one, a line further down. -/
theorem at_append {l : List Char} (hl : '\n' ∉ l) (rest : List Char) (offset : ℕ) :
    Place.at (l ++ '\n' :: rest) (l.length + 1 + offset) =
      ⟨l.length + 1 + offset, (Place.at rest offset).line + 1, (Place.at rest offset).column⟩ := by
  have htake : (l ++ '\n' :: rest).take (l.length + 1 + offset) =
      l ++ '\n' :: rest.take offset := by
    rw [Nat.add_assoc, List.take_length_add_append, Nat.add_comm 1, List.take_succ_cons]
  have hcolumn : ((l ++ '\n' :: rest.take offset).reverse.takeWhile (· != '\n')) =
      (rest.take offset).reverse.takeWhile (· != '\n') := by
    rw [List.reverse_append, List.reverse_cons, List.append_assoc, List.takeWhile_append]
    split_ifs with hall
    · rw [(List.takeWhile_prefix _).eq_of_length hall]
      simp
    · rfl
  unfold Place.at
  dsimp only
  rw [htake, hcolumn, List.count_append, List.count_cons_self, List.count_eq_zero_of_not_mem hl,
    Nat.zero_add]

theorem at_isIn {text : List Char} {offset : ℕ} (h : offset ≤ text.length) :
    (Place.at text offset).IsIn text := by
  -- The place is on the first line, its end included, or one of the text without this line.
  induction hlength : text.length using Nat.strong_induction_on generalizing text offset with
  | _ length ih =>
    subst hlength
    by_cases hfeed : '\n' ∈ text
    · obtain ⟨l, rest, rfl, hl⟩ := List.eq_append_cons_of_mem hfeed
      rcases Nat.lt_or_ge l.length offset with hless | hge
      · obtain ⟨k, rfl⟩ := Nat.exists_eq_add_of_le (Nat.succ_le_of_lt hless)
        rw [List.length_append, List.length_cons] at h
        have hk : k ≤ rest.length := by omega
        have hrest := ih rest.length (by simp; omega) hk rfl
        rw [at_append hl]
        exact hrest.below hl
      · have htake : '\n' ∉ (l ++ '\n' :: rest).take offset := by
          rw [List.take_append_of_le_length hge]
          exact fun hmem => hl (List.mem_of_mem_take hmem)
        rw [at_of_not_mem h htake]
        exact isIn_of_first (linesOf_append hl rest) (by simp) hge
    · rw [at_of_not_mem h fun hmem => hfeed (List.mem_of_mem_take hmem)]
      exact isIn_of_first (linesOf_of_not_mem hfeed) le_rfl h

/-! A place is known by its offset -/

/-- All of a line, and the line feed behind it, comes before the lines after it. -/
theorem Place.IsIn.offset_lt {p : Place} {text : List Char} (h : p.IsIn text) {line : ℕ}
    (hline : p.line < line) : p.offset < lineStart text line := by
  have hpos := h.line_pos
  have hlast := h.line_le
  have hcolumn := h.column_le
  have hlength : p.line - 1 < ((linesOf text).map fun l => l.length + 1).length := by
    rw [List.length_map]
    omega
  have hnext : lineStart text (p.line + 1) =
      lineStart text p.line + (lineLength text p.line + 1) := by
    have hindex : p.line + 1 - 1 = p.line - 1 + 1 := by omega
    rw [lineStart, hindex, List.sum_take_succ _ _ hlength, List.getElem_map, lineLength,
      List.getD_eq_getElem _ _ (by omega)]
    rfl
  have hmono : lineStart text (p.line + 1) ≤ lineStart text line :=
    (List.take_sublist_take_left (by omega)).sum_le_sum (by simp)
  have hoffset := h.offset_eq
  omega

theorem Place.IsIn.unique {p q : Place} {text : List Char} (hp : p.IsIn text) (hq : q.IsIn text)
    (h : p.offset = q.offset) : p = q := by
  have hpoffset := hp.offset_eq
  have hqoffset := hq.offset_eq
  have hline : p.line = q.line := by
    rcases Nat.lt_trichotomy p.line q.line with hless | heq | hgreater
    · have hlt := hp.offset_lt hless
      omega
    · exact heq
    · have hlt := hq.offset_lt hgreater
      omega
  have hcolumn : p.column = q.column := by
    have hppos := hp.column_pos
    have hqpos := hq.column_pos
    rw [hline] at hpoffset
    omega
  cases p
  cases q
  simp_all

/-! Reports -/

/-- Where the reader stops in a text that it cannot read: at the start if there are blanks only, at
the end if the text is cut short, and else where the fault starts that it found. -/
inductive StopsAt (text : List Char) : ℕ → Prop
  | blank : text.all isBlank = true → StopsAt text 0
  | cutShort {f : Failure} : document text = .error f → f.cutShort = true →
      StopsAt text text.length
  | fault {f : Failure} {offset : ℕ} : document text = .error f → f.cutShort = false →
      offset ≤ text.length → text.drop offset = f.rest → StopsAt text offset

theorem StopsAt.le_length {text : List Char} {offset : ℕ} (h : StopsAt text offset) :
    offset ≤ text.length := by
  cases h with
  | blank _ => exact Nat.zero_le _
  | cutShort _ _ => exact le_rfl
  | fault _ _ hle _ => exact hle

theorem exists_stop_of_document {text : List Char} {f : Failure} (h : document text = .error f) :
    ∃ offset, StopsAt text offset ∧ (f.report text).place = .at text offset := by
  obtain ⟨before, htext⟩ := rest_suffix_of_document h
  have hlength : text.length - f.rest.length = before.length := by
    rw [← htext, List.length_append, Nat.add_sub_cancel]
  have hdrop : text.drop before.length = f.rest := by rw [← htext, List.drop_left]
  have hle : before.length ≤ text.length := by simp [← htext]
  unfold Failure.report
  dsimp only
  rw [hlength]
  split_ifs with hshort hmark
  · exact ⟨text.length, .cutShort h hshort, rfl⟩
  · exact ⟨before.length, .fault h (by simpa using hshort) hle hdrop, by rw [hmark.1]⟩
  · exact ⟨before.length, .fault h (by simpa using hshort) hle hdrop, rfl⟩

theorem exists_stop {text : List Char} {r : Report} (h : parse text = .error r) :
    ∃ offset, StopsAt text offset ∧ r.place = .at text offset := by
  unfold parse at h
  split_ifs at h with hempty hblank
  · cases h
    rw [List.isEmpty_iff.mp hempty]
    exact ⟨0, .blank rfl, rfl⟩
  · cases h
    exact ⟨0, .blank hblank, rfl⟩
  · cases hdocument : document text with
    | ok d => simp [hdocument, Except.mapError] at h
    | error f =>
      rw [hdocument] at h
      cases h
      exact exists_stop_of_document hdocument

/-- The message of a text that cannot be read ends in a place of the text, whose line and column are
the only ones for its offset, and this is where the reader stops. -/
theorem fault_place_consistent {text : String} {r : Report}
    (h : (Source.text text).parse = .error r) :
    (DecodeError.malformed r).message = "invalid JSON: " ++ r.cause.message ++ ": " ++
        s!"line {r.place.line} column {r.place.column} (char {r.place.offset})" ∧
      r.place.IsIn text.toList ∧
      (∀ p : Place, p.IsIn text.toList → (p.offset = r.place.offset ↔ p = r.place)) ∧
      StopsAt text.toList r.place.offset := by
  rw [Source.parse_text] at h
  obtain ⟨offset, hstops, hplace⟩ := exists_stop h
  have hin : r.place.IsIn text.toList := by
    rw [hplace]
    exact at_isIn hstops.le_length
  have hoffset : r.place.offset = offset := by rw [hplace]; rfl
  refine ⟨?_, hin, fun p hp => ⟨hp.unique hin, congrArg _⟩, hoffset ▸ hstops⟩
  simp only [DecodeError.message, Report.message, toString, String.append_assoc]
  rfl

/-- A character of two bytes, a carriage return and an empty line before the fault. -/
theorem fault_place_consistent_lineEnds :
    let text := "[\"é\"\r\n\n x]"
    let r : Report := ⟨.noElementEnd, ⟨8, 3, 2⟩⟩
    (Source.text text).parse = .error r ∧ r.place.IsIn text.toList ∧
      lineStart text.toList 3 = 7 ∧ (DecodeError.malformed r).message =
        "invalid JSON: unexpected character, expected ',' or ']': line 3 column 2 (char 8)" := by
  have hparse : (Source.text "[\"é\"\r\n\n x]").parse =
      .error ⟨.noElementEnd, ⟨8, 3, 2⟩⟩ := by with_unfolding_all rfl
  intro text r
  obtain ⟨hmessage, hplace, -, -⟩ := fault_place_consistent hparse
  refine ⟨hparse, hplace, ?_, hmessage.trans (by decide)⟩
  have hoffset : 8 = lineStart text.toList 3 + 1 := hplace.offset_eq
  omega

end JsonAssert.Json
