import JsonAssert.Proofs.Command.Arguments
import JsonAssert.Proofs.Command.Run

/-! What a run does to the files. It writes the code of its input as a whole into one file, or it
changes nothing at all. -/
namespace JsonAssert.Command

/-! Input -/

/-- The file at the path can be read as this text. -/
def HoldsText (t : FileTree) (path text : String) : Prop :=
  ∃ b, t.read path = .ok b ∧ fileText b = .ok text

/-- The text of the file at the path has this code. -/
def HasCode (t : FileTree) (path code : String) : Prop :=
  ∃ text, HoldsText t path text ∧ (generateFrom (.text text) defaultRoot).outcome = .ok code

theorem HoldsText.unique {t : FileTree} {path text text' : String} (h : HoldsText t path text)
    (h' : HoldsText t path text') : text = text' := by
  obtain ⟨b, hread, htext⟩ := h
  obtain ⟨b', hread', htext'⟩ := h'
  obtain rfl := Except.ok.inj (hread.symm.trans hread')
  exact Except.ok.inj (htext.symm.trans htext')

theorem HasCode.unique {t : FileTree} {path code code' : String} (h : HasCode t path code)
    (h' : HasCode t path code') : code = code' := by
  obtain ⟨text, htext, hcode⟩ := h
  obtain ⟨text', htext', hcode'⟩ := h'
  obtain rfl := htext.unique htext'
  exact Except.ok.inj (hcode.symm.trans hcode')

/-- What keeps a run from writing the code for a path: the file is missing or is none, it holds no
text, its text holds no document, or its output cannot be opened. -/
inductive IsFault (t : FileTree) (path : String) : RunError → Prop
  | unreadable {e : FileError} : t.read path = .error e → IsFault t path (.file e path)
  | notUtf8 {b : List UInt8} {m : Utf8.Malformed} : t.read path = .ok b →
      Utf8.decode b = .error m → IsFault t path (.notUtf8 m)
  | noDocument {text : String} {e : DecodeError} : HoldsText t path text →
      (decode (.text text)).outcome = .error e → IsFault t path (.generate (.decode e))
  | unwritable {code : String} {e : FileError} : HasCode t path code →
      t.write (outputPath path) (Utf8.encode code.toList) = .error e →
      IsFault t path (.file e (outputPath path))

theorem IsFault.isFatal_eq_false {t : FileTree} {path : String} {e : RunError}
    (h : IsFault t path e) : e.isFatal = false := by
  cases h <;> rfl

/-- Where the code of a path is written, nothing was at fault. -/
theorem IsFault.write_ne_ok {t t' : FileTree} {path code : String} {e : RunError}
    (h : IsFault t path e) (hcode : HasCode t path code) :
    t.write (outputPath path) (Utf8.encode code.toList) ≠ .ok t' := by
  intro hwrite
  have ⟨text, htext, hgenerate⟩ := hcode
  cases h with
  | unreadable he =>
    obtain ⟨b, hread, -⟩ := htext
    simp [hread] at he
  | notUtf8 hread' hm =>
    obtain ⟨b, hread, hchars⟩ := htext
    obtain rfl := Except.ok.inj (hread.symm.trans hread')
    simp [fileText, hm] at hchars
  | noDocument htext' he =>
    obtain rfl := htext.unique htext'
    simp [outcome_generateFrom, he] at hgenerate
  | unwritable hcode' he =>
    rw [hcode'.unique hcode, hwrite] at he
    cases he

/-- What is logged for a path: what the generation from its text logs, if it holds one. -/
inductive IsLog (t : FileTree) (path : String) : List LogRecord → Prop
  | none : (¬ ∃ text, HoldsText t path text) → IsLog t path []
  | text {text : String} : HoldsText t path text →
      IsLog t path (generateFrom (.text text) defaultRoot).log

theorem log_outputBytes {b : List UInt8} {text : String} (h : fileText b = .ok text) :
    (outputBytes b).log = (generateFrom (.text text) defaultRoot).log := by
  unfold outputBytes
  rw [h]
  simp only [Traced.ofExcept, Traced.bind_ok, Traced.mapError]
  cases (generateFrom (.text text) defaultRoot).outcome with
  | error e => rfl
  | ok code => exact List.append_nil _

theorem isLog_outputBytes {t : FileTree} {path : String} {b : List UInt8}
    (hread : t.read path = .ok b) : IsLog t path (outputBytes b).log := by
  cases htext : fileText b with
  | ok text =>
    rw [log_outputBytes htext]
    exact .text ⟨b, hread, htext⟩
  | error e =>
    have hlog : (outputBytes b).log = [] := by
      unfold outputBytes
      rw [htext]
      rfl
    rw [hlog]
    refine .none ?_
    rintro ⟨text, b', hread', htext'⟩
    obtain rfl := Except.ok.inj (hread.symm.trans hread')
    cases htext.symm.trans htext'

/-- A file that can be read has code to write, or it is at fault. -/
theorem outputBytes_cases {t : FileTree} {path : String} {b : List UInt8}
    (hread : t.read path = .ok b) :
    (∃ code, HasCode t path code ∧ (outputBytes b).outcome = .ok (Utf8.encode code.toList)) ∨
      ∃ e, IsFault t path e ∧ (outputBytes b).outcome = .error e := by
  cases hdecode : Utf8.decode b with
  | error m =>
    have htext : fileText b = .error (.notUtf8 m) := by simp only [fileText, hdecode]
    exact .inr ⟨_, .notUtf8 hread hdecode, outcome_outputBytes_of_error htext⟩
  | ok chars =>
    have htext : fileText b = .ok (.ofList (Newline.unify chars)) := by
      simp only [fileText, hdecode]
    have houtput := outcome_outputBytes htext
    cases hcode : (generateFrom (.text (.ofList (Newline.unify chars))) defaultRoot).outcome with
    | ok code =>
      rw [hcode] at houtput
      exact .inl ⟨code, ⟨_, ⟨b, hread, htext⟩, hcode⟩, houtput⟩
    | error e =>
      rw [hcode] at houtput
      cases e with
      | decode e =>
        have he := outcome_decode_of_generateFrom hcode
        exact .inr ⟨_, .noDocument ⟨b, hread, htext⟩ he, houtput⟩
      | notJson e => exact absurd hcode (generateFrom_ne_notJson _ _ e)

/-! Generation -/

/-- What becomes of a path, and of the files. -/
inductive Generates (t : FileTree) (path : String) : Traced RunError String → FileTree → Prop
  | nul : '\x00' ∈ path.toList → Generates t path ⟨[], .error .nulInPath⟩ t
  | fault {log : List LogRecord} {e : RunError} : '\x00' ∉ path.toList → IsLog t path log →
      IsFault t path e → Generates t path ⟨log, .error e⟩ t
  | done {log : List LogRecord} {code : String} {t' : FileTree} : '\x00' ∉ path.toList →
      IsLog t path log → HasCode t path code →
      t.write (outputPath path) (Utf8.encode code.toList) = .ok t' →
      Generates t path ⟨log, .ok (outputPath path)⟩ t'

theorem generates (t : FileTree) (path : String) :
    Generates t path ((generateFile .ofTree path).run t).1
      ((generateFile .ofTree path).run t).2 := by
  rw [run_generateFile]
  split_ifs with hnul
  · exact .nul (by simpa using hnul)
  rw [List.contains_iff_mem] at hnul
  cases hread : t.read path with
  | error e =>
    have hnone : ¬ ∃ text, HoldsText t path text := by simp [HoldsText, hread]
    exact .fault hnul (.none hnone) (.unreadable hread)
  | ok b =>
    have hlog := isLog_outputBytes hread
    rcases outputBytes_cases hread with ⟨code, hcode, hout⟩ | ⟨e, he, hout⟩
    · simp only [hout]
      cases hwrite : t.write (outputPath path) (Utf8.encode code.toList) with
      | error e => exact .fault hnul hlog (.unwritable hcode hwrite)
      | ok t' => exact .done hnul hlog hcode hwrite
    · simp only [hout]
      exact .fault hnul hlog he

/-! Runs -/

/-- How a run ends: its status, what it prints to its output, and the files that it leaves. -/
inductive Ends (t : FileTree) (arguments : List String) : Status → String → FileTree → Prop
  | help : Request.ofList arguments = .help → Ends t arguments (.exited 0) (usage ++ "\n") t
  | malformed : Request.ofList arguments = .malformed → Ends t arguments (.exited 2) "" t
  | raised {a : Arguments} : Request.ofList arguments = .generate a → '\x00' ∈ a.path.toList →
      Ends t arguments (.raised .nulInPath) "" t
  | failed {a : Arguments} {e : RunError} : Request.ofList arguments = .generate a →
      '\x00' ∉ a.path.toList → IsFault t a.path e → Ends t arguments (.exited 1) "" t
  | done {a : Arguments} {code : String} {t' : FileTree} :
      Request.ofList arguments = .generate a → '\x00' ∉ a.path.toList → HasCode t a.path code →
      t.write (outputPath a.path) (Utf8.encode code.toList) = .ok t' →
      Ends t arguments (.exited 0) (outputPath a.path ++ "\n") t'

theorem ends_runOn (t : FileTree) (level : Option Level) (arguments : List String) :
    Ends t arguments (runOn t level arguments).1.status (runOn t level arguments).1.out
      (runOn t level arguments).2 := by
  rw [runOn_eq]
  cases hrequest : Request.ofList arguments with
  | help => exact .help hrequest
  | malformed => exact .malformed hrequest
  | generate a =>
    have hgenerates := generates t a.path
    dsimp only
    generalize (generateFile .ofTree a.path).run t = result at hgenerates ⊢
    obtain ⟨result, t'⟩ := result
    cases hgenerates with
    | nul hnul => exact .raised hrequest hnul
    | fault hnul _ he =>
      simp only [Outcome.ofGeneration, he.isFatal_eq_false]
      exact .failed hrequest hnul he
    | done hnul _ hcode hwrite => exact .done hrequest hnul hcode hwrite

/-! All or nothing -/

/-- A run that replaces the file beside its input by the code of the input as a whole, and prints
where that is, or that leaves all files as they were. Help goes before everything else, and then
arguments that are not understood. -/
structure IsAtomic (t : FileTree) (arguments : List String) (status : Status) (out : String)
    (t' : FileTree) : Prop where
  changed : ∀ names, t'.get? names ≠ t.get? names → status = .exited 0 ∧ ¬ AsksHelp arguments ∧
    ∃ a, Arguments.ofList? arguments = some a ∧
      t.locate (outputPath a.path) = .ok names
  done : status = .exited 0 → ¬ AsksHelp arguments → ∃ a code,
    Arguments.ofList? arguments = some a ∧ HasCode t a.path code ∧
      t.Replaces (outputPath a.path) (Utf8.encode code.toList) t' ∧
      out = outputPath a.path ++ "\n"
  unchanged : status ≠ .exited 0 → t' = t ∧ out = ""
  help : AsksHelp arguments → status = .exited 0 ∧ t' = t ∧ out = usage ++ "\n"
  malformed : status = .exited 2 ↔
    ¬ AsksHelp arguments ∧ Arguments.ofList? arguments = none
  failed : status = .exited 1 ↔ ¬ AsksHelp arguments ∧ ∃ a e,
    Arguments.ofList? arguments = some a ∧ '\x00' ∉ a.path.toList ∧ IsFault t a.path e
  raised : ∀ e, status = .raised e ↔ e = .nulInPath ∧ ¬ AsksHelp arguments ∧ ∃ a,
    Arguments.ofList? arguments = some a ∧ '\x00' ∈ a.path.toList
  exits : status = .exited 0 ∨ status = .exited 1 ∨ status = .exited 2 ∨
    status = .raised .nulInPath

theorem Ends.isAtomic {t t' : FileTree} {arguments : List String} {status : Status} {out : String}
    (h : Ends t arguments status out t') : IsAtomic t arguments status out t' := by
  cases h with
  | help hrequest =>
    have hhelp := (Request.ofList_eq_help_iff arguments).mp hrequest
    exact {
      changed := fun _ hne => absurd rfl hne
      done := fun _ hnot => absurd hhelp hnot
      unchanged := fun hne => absurd rfl hne
      help := fun _ => ⟨rfl, rfl, rfl⟩
      malformed := by simp [hhelp]
      failed := by simp [hhelp]
      raised := by simp [hhelp]
      exits := by simp }
  | malformed hrequest =>
    obtain ⟨hhelp, hnone⟩ := (Request.ofList_eq_malformed_iff arguments).mp hrequest
    exact {
      changed := fun _ hne => absurd rfl hne
      done := by simp
      unchanged := fun _ => ⟨rfl, rfl⟩
      help := fun hask => absurd hask hhelp
      malformed := by simp [hhelp, hnone]
      failed := by simp [hnone]
      raised := by simp [hnone]
      exits := by simp }
  | @raised a hrequest hnul =>
    obtain ⟨hhelp, hsome⟩ := (Request.ofList_eq_generate_iff arguments a).mp hrequest
    exact {
      changed := fun _ hne => absurd rfl hne
      done := by simp
      unchanged := fun _ => ⟨rfl, rfl⟩
      help := fun hask => absurd hask hhelp
      malformed := by simp [hsome]
      failed := by simp [hsome, hnul]
      raised := by simp [hhelp, hsome, hnul, eq_comm]
      exits := by simp }
  | @failed a e hrequest hnul he =>
    obtain ⟨hhelp, hsome⟩ := (Request.ofList_eq_generate_iff arguments a).mp hrequest
    have hfault : ∃ e, IsFault t a.path e := ⟨e, he⟩
    exact {
      changed := fun _ hne => absurd rfl hne
      done := by simp
      unchanged := fun _ => ⟨rfl, rfl⟩
      help := fun hask => absurd hask hhelp
      malformed := by simp [hsome]
      failed := by simp [hhelp, hsome, hnul, hfault]
      raised := by simp [hsome, hnul]
      exits := by simp }
  | @done a code t' hrequest hnul hcode hwrite =>
    obtain ⟨hhelp, hsome⟩ := (Request.ofList_eq_generate_iff arguments a).mp hrequest
    have hreplaces := FileTree.replaces_of_write hwrite
    have hfault : ¬ ∃ e, IsFault t a.path e := fun ⟨e, he⟩ => he.write_ne_ok hcode hwrite
    exact {
      changed := fun names hne => by
        obtain ⟨names', hlocate, -, hframe⟩ := hreplaces.entry
        have heq : names = names' := by
          by_contra hother
          exact hne (hframe names hother)
        exact ⟨rfl, hhelp, a, hsome, heq ▸ hlocate⟩
      done := fun _ _ => ⟨a, code, hsome, hcode, hreplaces, rfl⟩
      unchanged := fun hne => absurd rfl hne
      help := fun hask => absurd hask hhelp
      malformed := by simp [hsome]
      failed := by simpa [hsome, hnul, hhelp] using hfault
      raised := by simp [hsome, hnul]
      exits := by simp }

/-- Whatever the files, the level of the log and the arguments are, a run is all or nothing. -/
theorem run_all_or_nothing (t : FileTree) (level : Option Level) (arguments : List String) :
    IsAtomic t arguments (runOn t level arguments).1.status (runOn t level arguments).1.out
      (runOn t level arguments).2 :=
  (ends_runOn t level arguments).isAtomic

/-- A path from the root, and an output that was there before, of which nothing stays. -/
theorem run_all_or_nothing_oldOutput :
    let t : FileTree := ⟨[(["w"], .directory), (["tmp"], .directory),
      (["tmp", "d.json"], .file (Utf8.encode "[\x7b\x7d]".toList)),
      (["tmp", "d.json_test.txt"], .file [0x6F, 0x6C, 0x64])], ["w"]⟩
    (runOn t none ["/tmp/d.json"]).1.status = .exited 0 ∧ ∃ a code,
      Arguments.ofList? ["/tmp/d.json"] = some a ∧ HasCode t a.path code ∧
        t.Replaces (outputPath a.path) (Utf8.encode code.toList)
          (runOn t none ["/tmp/d.json"]).2 := by
  intro t
  have hstatus : (runOn t none ["/tmp/d.json"]).1.status = .exited 0 := by decide +kernel
  obtain ⟨a, code, ha, hcode, hreplaces, -⟩ :=
    (run_all_or_nothing t none ["/tmp/d.json"]).done hstatus (by simp [AsksHelp])
  exact ⟨hstatus, a, code, ha, hcode, hreplaces⟩

end JsonAssert.Command
