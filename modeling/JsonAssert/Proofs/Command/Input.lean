import JsonAssert.Proofs.Command.Effects
import JsonAssert.Proofs.Text.Malformed

/-! The input of a run. It is read as a text exactly where its bytes are those of one, and a run on
any other bytes ends in the report of them. -/
namespace JsonAssert.Command
open Utf8

theorem fileText_eq_ok_iff {b : List UInt8} {text : String} :
    fileText b = .ok text ↔ ∃ chars, b = encode chars ∧ .ofList (Newline.unify chars) = text := by
  unfold fileText
  cases hdecode : Utf8.decode b with
  | ok chars =>
    obtain rfl := decode_eq_ok_iff.mp hdecode
    constructor
    · intro h
      exact ⟨chars, rfl, Except.ok.inj h⟩
    · rintro ⟨chars', heq, rfl⟩
      obtain rfl : chars = chars' := by
        rw [decode_eq_ok_iff.mpr heq] at hdecode
        exact (Except.ok.inj hdecode).symm
      rfl
  | error m =>
    refine iff_of_false (by simp) ?_
    rintro ⟨chars, heq, -⟩
    rw [decode_eq_ok_iff.mpr heq] at hdecode
    cases hdecode

theorem exists_fileText_iff {b : List UInt8} : (∃ text, fileText b = .ok text) ↔ IsEncoding b := by
  simp only [fileText_eq_ok_iff, IsEncoding]
  constructor
  · rintro ⟨-, chars, heq, -⟩
    exact ⟨chars, heq⟩
  · rintro ⟨chars, heq⟩
    exact ⟨_, chars, heq, rfl⟩

theorem fileText_of_reports {b : List UInt8} {m : Malformed} (h : Reports b m) :
    fileText b = .error (.notUtf8 m) := by
  rw [fileText, decode_eq_error_iff.mpr h]

theorem outputBytes_of_error {b : List UInt8} {e : RunError} (h : fileText b = .error e) :
    outputBytes b = ⟨[], .error e⟩ := by
  unfold outputBytes
  rw [h]
  rfl

/-- Where the input has a text, no run complains of its bytes. -/
theorem notUtf8_iff_reports {t : FileTree} {path : String} {b : List UInt8}
    (hnul : '\x00' ∉ path.toList) (hread : t.read path = .ok b) (m : Malformed) :
    ((generateFile .ofTree path).run t).1.outcome = .error (.notUtf8 m) ↔ Reports b m := by
  constructor
  · intro h
    have hgenerates := generates t path
    generalize (generateFile .ofTree path).run t = result at h hgenerates
    obtain ⟨⟨log, outcome⟩, t'⟩ := result
    cases hgenerates with
    | nul hmem => exact absurd hmem hnul
    | fault _ _ hfault =>
      cases h
      cases hfault with
      | notUtf8 hread' hdecode =>
        obtain rfl := Except.ok.inj (hread.symm.trans hread')
        exact decode_eq_error_iff.mp hdecode
    | done _ _ _ _ => cases h
  · intro h
    have hout := outputBytes_of_error (fileText_of_reports h)
    have hcontains : path.toList.contains '\x00' = false := by simpa using hnul
    rw [generateFile_of_error hcontains hread (e := .notUtf8 m) (by rw [hout])]

/-- A run on bytes that are no text says so, and leaves all files alone. -/
theorem runOn_of_reports {t : FileTree} {level : Option Level} {arguments : List String}
    {a : Arguments} {b : List UInt8} {m : Malformed}
    (hrequest : Request.ofList arguments = .generate a) (hnul : '\x00' ∉ a.path.toList)
    (hread : t.read a.path = .ok b) (h : Reports b m) :
    runOn t level arguments =
      (⟨.exited 1, "", "Error: " ++ m.message ++ "\n",
        some (level.getD (if a.verbose then .debug else .warning))⟩, t) := by
  have hout := outputBytes_of_error (fileText_of_reports h)
  have hcontains : a.path.toList.contains '\x00' = false := by simpa using hnul
  rw [runOn_eq, hrequest]
  simp only
  rw [generateFile_of_error hcontains hread (e := .notUtf8 m) (by rw [hout]), hout]
  simp [Outcome.ofGeneration, RunError.isFatal, RunError.message, Level.visible]

/-- Whatever the bytes of the input are, they are read exactly where they are the encoding of a
text, and as the only text that they encode, with its line ends made one. Otherwise the run ends in
the only report that the bytes have. -/
theorem input_read_strictly {t : FileTree} {arguments : List String} {a : Arguments}
    {b : List UInt8} (level : Option Level) (hrequest : Request.ofList arguments = .generate a)
    (hnul : '\x00' ∉ a.path.toList) (hread : t.read a.path = .ok b) :
    ((∃ text, fileText b = .ok text) ↔ IsEncoding b) ∧
      (∀ chars, b = encode chars → Utf8.decode b = .ok chars ∧
        fileText b = .ok (.ofList (Newline.unify chars)) ∧
        ∀ chars', b = encode chars' → chars' = chars) ∧
      (∀ m, ((generateFile .ofTree a.path).run t).1.outcome = .error (.notUtf8 m) ↔
        Reports b m) ∧
      (¬ IsEncoding b → ∃ m, Reports b m ∧
        runOn t level arguments =
          (⟨.exited 1, "", "Error: " ++ m.message ++ "\n",
            some (level.getD (if a.verbose then .debug else .warning))⟩, t)) := by
  refine ⟨exists_fileText_iff, ?_, notUtf8_iff_reports hnul hread, ?_⟩
  · rintro chars rfl
    refine ⟨decode_encode chars, fileText_eq_ok_iff.mpr ⟨chars, rfl, rfl⟩, fun chars' heq => ?_⟩
    have hdecode := decode_encode chars'
    rw [← heq, decode_encode] at hdecode
    exact (Except.ok.inj hdecode).symm
  · intro hnone
    cases hdecode : Utf8.decode b with
    | ok chars => exact absurd (isEncoding_iff.mpr ⟨chars, hdecode⟩) hnone
    | error m =>
      have hreports := decode_eq_error_iff.mp hdecode
      exact ⟨m, hreports, runOn_of_reports hrequest hnul hread hreports⟩

/-- Two bytes of a character that takes three, and then a bracket. -/
theorem input_read_strictly_cutCharacter :
    let b : List UInt8 := [0x22, 0xE2, 0x82, 0x5D]
    let t : FileTree := ⟨[(["d.json"], .file b)], []⟩
    Request.ofList ["d.json"] = .generate ⟨"d.json", false⟩ ∧ '\x00' ∉ "d.json".toList ∧
      t.read "d.json" = .ok b ∧ ¬ IsEncoding b ∧
      (runOn t none ["d.json"]).1.err =
        "Error: 'utf-8' codec can't decode bytes in position 1-2: invalid continuation byte\n" := by
  intro b t
  have hrequest : Request.ofList ["d.json"] = .generate ⟨"d.json", false⟩ := by decide
  have hnul : '\x00' ∉ "d.json".toList := by decide
  have hread : t.read "d.json" = .ok b := by rfl
  have hreports : Reports b ⟨0xE2, 1, 1, .continuationByte⟩ :=
    decode_eq_error_iff.mp (by with_unfolding_all rfl)
  obtain ⟨-, -, -, hruns⟩ := input_read_strictly none hrequest hnul hread
  obtain ⟨m, hm, hrun⟩ := hruns hreports.not_isEncoding
  obtain rfl := hm.unique hreports
  refine ⟨hrequest, hnul, hread, hreports.not_isEncoding, ?_⟩
  rw [hrun]
  decide

end JsonAssert.Command
