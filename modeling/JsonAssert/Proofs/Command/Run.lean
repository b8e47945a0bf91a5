import JsonAssert.Command.Run
import JsonAssert.Proofs.Assertion.Generation
import JsonAssert.Proofs.Files.Path
import JsonAssert.Proofs.Json.LineEnds

/-! A run of the command on a file agrees with the generation of assertions from the bytes of the
file, although it reads them as a text with its line ends made one. -/
namespace JsonAssert.Command
open Json

/-! The text of a file -/

/-- Reading a file as a text changes neither whether it is accepted nor the data that it holds. -/
theorem parse_fileText_iff (b : List UInt8) (d : Data) :
    (∃ text, fileText b = .ok text ∧ (Source.text text).parse = .ok d) ↔
      (Source.bytes b).parse = .ok d := by
  unfold fileText
  cases hdecode : Utf8.decode b with
  | error m => simp [Source.parse_bytes_of_error hdecode]
  | ok chars => simp [Source.parse_bytes hdecode, Source.parse_text, parse_unify_iff]

/-- Where a file holds no text, its bytes hold none for the parser either. -/
theorem fileText_cases (b : List UInt8) :
    (∃ text, fileText b = .ok text) ∨
      ∃ m, fileText b = .error (.notUtf8 m) ∧
        (Source.bytes b).parse = .error ⟨.invalidUtf8, .at [] 0⟩ := by
  unfold fileText
  cases hdecode : Utf8.decode b with
  | error m => exact .inr ⟨m, rfl, Source.parse_bytes_of_error hdecode⟩
  | ok chars => exact .inl ⟨_, rfl⟩

/-- The text of a file and its bytes have the same assertions, or a fault each. -/
theorem outcome_generateFrom_fileText {b : List UInt8} {text : String}
    (h : fileText b = .ok text) (root : String) :
    (generateFrom (.text text) root).outcome = (generateFrom (.bytes b) root).outcome ∨
      ∃ report report',
        (generateFrom (.text text) root).outcome = .error (.decode (.malformed report)) ∧
        (generateFrom (.bytes b) root).outcome = .error (.decode (.malformed report')) := by
  have hparse := parse_fileText_iff b
  simp only [h, Except.ok.injEq, exists_eq_left'] at hparse
  cases hbytes : (Source.bytes b).parse with
  | ok d =>
    left
    rw [outcome_generateFrom_of_parse hbytes, outcome_generateFrom_of_parse ((hparse d).mpr hbytes)]
  | error report' =>
    cases htext : (Source.text text).parse with
    | ok d => simp [(hparse d).mp htext] at hbytes
    | error report =>
      exact .inr ⟨report, report', outcome_generateFrom_of_error htext root,
        outcome_generateFrom_of_error hbytes root⟩

theorem outcome_outputBytes {b : List UInt8} {text : String} (h : fileText b = .ok text) :
    (outputBytes b).outcome =
      match (generateFrom (.text text) defaultRoot).outcome with
      | .error e => .error (.generate e)
      | .ok code => .ok (Utf8.encode code.toList) := by
  unfold outputBytes
  rw [h]
  simp only [Traced.ofExcept, Traced.bind_ok, Traced.mapError]
  cases (generateFrom (.text text) defaultRoot).outcome <;> rfl

theorem outcome_outputBytes_of_error {b : List UInt8} {e : RunError}
    (h : fileText b = .error e) : (outputBytes b).outcome = .error e := by
  unfold outputBytes
  rw [h]
  rfl

/-- What is written for a file is the code for its bytes, and there is something to write exactly
when there is code; else the run goes wrong without being broken off. -/
theorem outcome_outputBytes_cases (b : List UInt8) :
    (∃ code, (generateFrom (.bytes b) defaultRoot).outcome = .ok code ∧
        (outputBytes b).outcome = .ok (Utf8.encode code.toList)) ∨
      ∃ e e', (generateFrom (.bytes b) defaultRoot).outcome = .error e ∧
        (outputBytes b).outcome = .error e' ∧ e'.isFatal = false := by
  rcases fileText_cases b with ⟨text, htext⟩ | ⟨m, htext, hbytes⟩
  · have houtput := outcome_outputBytes htext
    have hnotJson := generateFrom_ne_notJson (.bytes b) defaultRoot
    rcases outcome_generateFrom_fileText htext defaultRoot with heq | ⟨r, r', h, h'⟩
    · rw [heq] at houtput
      cases hbytes : (generateFrom (.bytes b) defaultRoot).outcome with
      | ok code =>
        rw [hbytes] at houtput
        exact .inl ⟨code, rfl, houtput⟩
      | error e =>
        rw [hbytes] at houtput hnotJson
        cases e with
        | decode e => exact .inr ⟨_, _, rfl, houtput, rfl⟩
        | notJson e => exact absurd rfl (hnotJson e)
    · rw [h] at houtput
      exact .inr ⟨_, _, h', houtput, rfl⟩
  · exact .inr ⟨_, _, outcome_generateFrom_of_error hbytes _,
      outcome_outputBytes_of_error htext, rfl⟩

/-! Runs -/

theorem request_of_path {path : String} (h : isOption path = false) :
    Request.ofList [path] = .generate ⟨path, false⟩ := by
  have hne {s : String} (hs : isOption s = true) : (path == s) = false := by
    rw [beq_eq_false_iff_ne]
    rintro rfl
    exact Bool.noConfusion (h.symm.trans hs)
  have hhelp : isHelp path = false := by
    rw [isHelp, hne (by decide), hne (by decide)]
    rfl
  have hverbose : isVerbose path = false := by
    rw [isVerbose, hne (by decide), hne (by decide)]
    rfl
  simp [Request.ofList, Arguments.ofList?, hhelp, hverbose, h]

/-- What becomes of a path and of the files, by what is read and what is written. -/
theorem run_generateFile (t : FileTree) (path : String) :
    (generateFile .ofTree path).run t =
      if path.toList.contains '\x00' then (⟨[], .error .nulInPath⟩, t)
      else
        match t.read path with
        | .error e => (⟨[], .error (.file e path)⟩, t)
        | .ok b =>
          match (outputBytes b).outcome with
          | .error e => (⟨(outputBytes b).log, .error e⟩, t)
          | .ok code =>
            match t.write (outputPath path) code with
            | .error e => (⟨(outputBytes b).log, .error (.file e (outputPath path))⟩, t)
            | .ok t' => (⟨(outputBytes b).log, .ok (outputPath path)⟩, t') := by
  simp only [generateFile, Storage.ofTree]
  split_ifs
  · rfl
  cases hread : t.read path with
  | error e =>
    simp [hread, StateT.run, bind, StateT.bind, get, getThe, MonadStateOf.get, StateT.get, pure,
      StateT.pure]
  | ok b =>
    cases hout : (outputBytes b).outcome with
    | error e =>
      simp [hread, hout, StateT.run, bind, StateT.bind, get, getThe, MonadStateOf.get, StateT.get,
        pure, StateT.pure]
    | ok code =>
      cases hwrite : t.write (outputPath path) code <;>
        simp [hread, hout, hwrite, StateT.run, bind, StateT.bind, get, getThe, MonadStateOf.get,
          StateT.get, set, StateT.set, pure, StateT.pure]

/-- A file that can be read and has an output leads to that output, if it can be written. -/
theorem generateFile_of_ok {t t' : FileTree} {path : String} {b out : List UInt8}
    (hnul : path.toList.contains '\x00' = false) (hread : t.read path = .ok b)
    (hout : (outputBytes b).outcome = .ok out) (hwrite : t.write (outputPath path) out = .ok t') :
    (generateFile .ofTree path).run t = (⟨(outputBytes b).log, .ok (outputPath path)⟩, t') := by
  rw [run_generateFile, if_neg (by simpa using hnul), hread]
  simp only [hout, hwrite]

theorem generateFile_of_error {t : FileTree} {path : String} {b : List UInt8} {e : RunError}
    (hnul : path.toList.contains '\x00' = false) (hread : t.read path = .ok b)
    (hout : (outputBytes b).outcome = .error e) :
    (generateFile .ofTree path).run t = (⟨(outputBytes b).log, .error e⟩, t) := by
  rw [run_generateFile, if_neg (by simpa using hnul), hread]
  simp only [hout]

/-- What a run comes to, by what is asked for. -/
theorem runOn_eq (t : FileTree) (level : Option Level) (arguments : List String) :
    runOn t level arguments =
      match Request.ofList arguments with
      | .help => (⟨.exited 0, usage ++ "\n", "", level⟩, t)
      | .malformed => (⟨.exited 2, "", usage ++ "\n", level⟩, t)
      | .generate a =>
        let result := (generateFile .ofTree a.path).run t
        (.ofGeneration (level.getD (if a.verbose then .debug else .warning)) result.1, result.2) := by
  unfold runOn run
  cases Request.ofList arguments <;> rfl

theorem runOn_path {t t' : FileTree} {path : String} {result : Traced RunError String}
    (level : Option Level) (hpath : isOption path = false)
    (h : (generateFile .ofTree path).run t = (result, t')) :
    runOn t level [path] = (.ofGeneration (level.getD .warning) result, t') := by
  rw [runOn_eq, request_of_path hpath]
  simp only [h]
  rfl

/-- For a file that the command can read and write beside, the run ends well exactly when the bytes
of the file have assertions, and then the file beside it holds these; else it ends with 1. The text
that the command makes of the bytes stands for the same data as the bytes. No file has a path with
a null character in it. -/
theorem run_eq_generateFrom {t : FileTree} {path : String} {b : List UInt8} (level : Option Level)
    (hpath : isOption path = false) (hnul : path.toList.contains '\x00' = false)
    (hread : t.read path = .ok b)
    (hwrite : ∀ bytes, ∃ t', t.write (outputPath path) bytes = .ok t') :
    ((runOn t level [path]).1.status = .exited 0 ↔
        ∃ code, (generateFrom (.bytes b) defaultRoot).outcome = .ok code) ∧
      (∀ code, (generateFrom (.bytes b) defaultRoot).outcome = .ok code →
        (runOn t level [path]).2.read (outputPath path) = .ok (Utf8.encode code.toList)) ∧
      ((¬ ∃ code, (generateFrom (.bytes b) defaultRoot).outcome = .ok code) →
        (runOn t level [path]).1.status = .exited 1) ∧
      ∀ d, (∃ text, fileText b = .ok text ∧ (Source.text text).parse = .ok d) ↔
        (Source.bytes b).parse = .ok d := by
  rcases outcome_outputBytes_cases b with ⟨code, hcode, hout⟩ | ⟨e, e', he, hout, hfatal⟩
  · obtain ⟨t', ht'⟩ := hwrite (Utf8.encode code.toList)
    have hrun := runOn_path level hpath (generateFile_of_ok hnul hread hout ht')
    rw [hrun, hcode]
    refine ⟨by simp [Outcome.ofGeneration], ?_, by simp, parse_fileText_iff b⟩
    intro code' hcode'
    obtain rfl := Except.ok.inj hcode'
    exact FileTree.read_of_write ht'
  · have hrun := runOn_path level hpath (generateFile_of_error hnul hread hout)
    have hstatus : (runOn t level [path]).1.status = .exited 1 := by
      rw [hrun]
      simp [Outcome.ofGeneration, hfatal]
    rw [hstatus, he]
    exact ⟨by simp, by simp, by simp, parse_fileText_iff b⟩

/-- A file outside the working directory, whose object is spread over lines with both kinds of
ends. -/
theorem run_eq_generateFrom_lineEnds :
    let b := Utf8.encode ['\x7b', '\r', '\n', '"', 'a', '"', '\r', ':', '1', '\x7d']
    let t : FileTree := ⟨[(["w"], .directory), (["d.json"], .file b)], ["w"]⟩
    isOption "../d.json" = false ∧ t.read "../d.json" = .ok b ∧
      ((runOn t none ["../d.json"]).1.status = .exited 0 ↔
        ∃ code, (generateFrom (.bytes b) defaultRoot).outcome = .ok code) := by
  intro b t
  have hread : t.read "../d.json" = .ok b := by rfl
  have hwrite : ∀ bytes, ∃ t', t.write (outputPath "../d.json") bytes = .ok t' :=
    fun bytes => ⟨_, rfl⟩
  exact ⟨by decide, hread, (run_eq_generateFrom none (by decide) (by decide) hread hwrite).1⟩

end JsonAssert.Command
