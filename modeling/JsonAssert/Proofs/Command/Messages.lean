import JsonAssert.Proofs.Assertion.Lines
import JsonAssert.Proofs.Command.Effects
import JsonAssert.Proofs.Dispatch

/-! What a run says of a fault. Whatever the path and the contents of the files are, no message has
a control character in it, so each stands on a line of its own. -/
namespace JsonAssert
open Json

/-! Paths -/

namespace Display

theorem isPrinted_quoteFor (path : List Char) : 0x20 ≤ (quoteFor path).toNat := by
  unfold quoteFor
  split_ifs <;> decide

theorem isPrinted_of_printable {c : Char} (h : printable c = true) : 0x20 ≤ c.toNat := by
  have hcontrol : (0x0, 0x1F) ∈ Printable.gaps := List.mem_cons_self
  simp only [printable, Bool.not_eq_true', List.any_eq_false, Bool.and_eq_true,
    decide_eq_true_eq] at h
  have hnot := h _ hcontrol
  omega

theorem isPrinted_hex (width n : ℕ) : IsPrinted (hex width n) := by
  rw [hex, isPrinted_append]
  refine ⟨?_, isPrinted_toDigits (by decide) (by decide) n⟩
  intro c hc
  rw [List.eq_of_mem_replicate hc]
  decide

/-- A control character is escaped, whatever the quote is. -/
theorem isPrinted_escape {quote : Char} (hquote : 0x20 ≤ quote.toNat) (c : Char) :
    IsPrinted (escape quote c) := by
  unfold escape
  split_ifs with hself htab hfeed hreturn hshown hbyte hshort
  · rcases hself with rfl | rfl
    · simp [isPrinted_cons, isPrinted_nil, hquote]
    · decide
  · decide
  · decide
  · decide
  · exact isPrinted_cons.mpr ⟨isPrinted_of_printable hshown, isPrinted_nil⟩
  all_goals
    rw [isPrinted_cons, isPrinted_cons]
    exact ⟨by decide, by decide, isPrinted_hex _ _⟩

theorem isPrinted_path (s : String) : IsPrinted (path s).toList := by
  have hquote := isPrinted_quoteFor s.toList
  have hescapes : IsPrinted (s.toList.flatMap (escape (quoteFor s.toList))) := by
    intro d hd
    obtain ⟨c, -, hdc⟩ := List.mem_flatMap.mp hd
    exact isPrinted_escape hquote c d hdc
  apply isPrinted_ofList
  rw [isPrinted_cons, isPrinted_append, isPrinted_cons]
  exact ⟨hquote, hescapes, hquote, isPrinted_nil⟩

end Display

/-! Files -/

/-- A cause that the tree has a word for. -/
def FileError.IsKnown : FileError → Prop
  | .other _ _ => False
  | _ => True

theorem FileError.IsKnown.isPrinted_text {e : FileError} (h : e.IsKnown) :
    IsPrinted e.text.toList := by
  cases e with
  | other _ _ => exact absurd h id
  | _ => exact isPrinted_ofList (by decide)

namespace FileTree
variable {t : FileTree} {e : FileError}

theorem isKnown_of_follow {names : List String} {name : String}
    (h : t.follow names name = .error e) : e.IsKnown := by
  unfold follow at h
  split at h
  · cases h
    exact trivial
  · cases h
    exact trivial
  split_ifs at h
  cases h
  exact trivial

theorem isKnown_of_locate {path : String} (h : t.locate path = .error e) : e.IsKnown := by
  have hsteps (parts : List String) {start : List String}
      (h : parts.foldlM t.follow start = .error e) : e.IsKnown := by
    induction parts generalizing start with
    | nil => cases h
    | cons part parts ih =>
      rw [List.foldlM_cons] at h
      cases hstep : t.follow start part with
      | error cause =>
        rw [hstep] at h
        cases h
        exact isKnown_of_follow hstep
      | ok next =>
        rw [hstep] at h
        exact ih h
  unfold locate at h
  split_ifs at h
  · cases h
    exact trivial
  · cases h
    exact trivial
  · exact hsteps _ h

theorem isKnown_of_read {path : String} (h : t.read path = .error e) : e.IsKnown := by
  unfold read at h
  cases hlocate : t.locate path with
  | error cause =>
    rw [hlocate] at h
    cases h
    exact isKnown_of_locate hlocate
  | ok names =>
    simp only [hlocate] at h
    split at h
    · cases h
      exact trivial
    · cases h
      exact trivial
    · cases h

theorem isKnown_of_write {path : String} {bytes : List UInt8}
    (h : t.write path bytes = .error e) : e.IsKnown := by
  unfold write at h
  cases hlocate : t.locate path with
  | error cause =>
    rw [hlocate] at h
    cases h
    exact isKnown_of_locate hlocate
  | ok names =>
    simp only [hlocate] at h
    split at h
    · cases h
      exact trivial
    · cases h

end FileTree

/-! Texts and documents -/

theorem Utf8.Malformed.isPrinted_message (m : Utf8.Malformed) : IsPrinted m.message.toList := by
  have hreason : IsPrinted m.reason.text.toList := by
    cases m.reason <;> exact isPrinted_ofList (by decide)
  have hplace : IsPrinted (if m.extra = 0 then
      s!"byte 0x{String.ofList (Nat.toDigits 16 m.lead.toNat)} in position {m.position}"
    else s!"bytes in position {m.position}-{m.position + m.extra}").toList := by
    have hlead := isPrinted_ofList (isPrinted_toDigits (by decide) le_rfl m.lead.toNat)
    split_ifs
    · exact isPrinted_ofList (by decide) |>.append hlead |>.word (by decide) |>.count _
    · exact isPrinted_ofList (by decide) |>.count _ |>.word (by decide) |>.count _
  exact isPrinted_ofList (by decide) |>.append hplace |>.word (by decide) |>.append hreason

theorem Json.Cause.isPrinted_message (c : Cause) : IsPrinted c.message.toList := by
  cases c with
  | noLiteral l =>
    have hspelling : IsPrinted l.spelling := by cases l <;> decide
    exact isPrinted_ofList (by decide) |>.word hspelling |>.word (by decide)
  | _ => exact isPrinted_ofList (by decide)

theorem Json.Report.isPrinted_message (r : Report) : IsPrinted r.message.toList := by
  have hcause := r.cause.isPrinted_message
  exact hcause.word (by decide) |>.count _ |>.word (by decide) |>.count _ |>.word (by decide)
    |>.count _ |>.word (by decide)

theorem Data.IsJson.isPrinted_kind {depth : ℕ} {d : Data} (h : d.IsJson depth) :
    IsPrinted d.kind.toList := by
  cases h <;> exact isPrinted_ofList (by decide)

/-- A decoder's answer names nothing but the kinds of JSON data. -/
theorem isPrinted_of_answers {parsed : Except Report Data} {e : DecodeError} {depth : ℕ}
    (hjson : ∀ d, parsed = .ok d → d.IsJson depth) (h : Answers parsed (.error e)) :
    IsPrinted e.message.toList := by
  cases h with
  | @fault report _ he =>
    rw [he.2]
    exact (isPrinted_ofList (by decide)).append report.isPrinted_message
  | @element items i d _ hd _ _ he =>
    obtain ⟨m, -, -, -, hmessage⟩ := he
    cases hjson _ rfl with
    | list hitems =>
      have hkind := (hitems d (List.mem_of_getElem? hd)).isPrinted_kind
      rw [hmessage]
      exact isPrinted_ofList (by decide) |>.count i |>.word (by decide) |>.append hkind
  | @scalar d _ hd he =>
    obtain ⟨m, -, -, -, hmessage⟩ := he
    rw [hmessage]
    exact (isPrinted_ofList (by decide)).append (hjson d rfl).isPrinted_kind

theorem isPrinted_of_decode {source : Source} {e : DecodeError}
    (h : (decode source).outcome = .error e) : IsPrinted e.message.toList := by
  have hanswers := answers_decode source
  rw [h] at hanswers
  exact isPrinted_of_answers (fun d hparse => Source.isJson_of_parse hparse) hanswers

/-! Runs -/

namespace Command

theorem isPrinted_file {e : FileError} (h : e.IsKnown) (path : String) :
    IsPrinted (RunError.file e path).message.toList :=
  isPrinted_ofList (by decide) |>.count _ |>.word (by decide) |>.append h.isPrinted_text
    |>.word (by decide) |>.append (Display.isPrinted_path path)

/-- What a run says of a fault stands on one line. -/
theorem IsFault.isPrinted_message {t : FileTree} {path : String} {e : RunError}
    (h : IsFault t path e) : IsPrinted e.message.toList := by
  cases h with
  | unreadable he => exact isPrinted_file (FileTree.isKnown_of_read he) path
  | notUtf8 _ _ => exact Utf8.Malformed.isPrinted_message _
  | noDocument _ he => exact isPrinted_of_decode he
  | unwritable _ he => exact isPrinted_file (FileTree.isKnown_of_write he) (outputPath path)

end Command
end JsonAssert
