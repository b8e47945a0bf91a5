import JsonAssert.Proofs.Command.Arguments
import JsonAssert.Proofs.Command.Run
import JsonAssert.Proofs.Files.Target

/-! Runs that are repeated, and runs that keep to files of their own. What a run comes to is settled
by what it reads and by where its output goes, and it writes there and nowhere else. So it finds what
it found before, as long as no other run has written to its input. -/
namespace JsonAssert.Command

/-! Footprints -/

/-- What a run finds of the files: its input, and where its output goes. -/
structure Footprint where
  input : Except FileError (List UInt8)
  output : Except FileError (List String)

def footprint (t : FileTree) (path : String) : Footprint := ⟨t.read path, t.target (outputPath path)⟩

/-- The contents of a file to be written, and its names. -/
structure Write where
  names : List String
  bytes : List UInt8

/-- The files after a write, if there is any. -/
def Write.apply (t : FileTree) : Option Write → FileTree
  | none => t
  | some w => t.put w.names (.file w.bytes)

/-- What a run does: the result that it reports, and what it writes. -/
structure Effect where
  result : Traced RunError String
  write : Option Write

def Footprint.effect (f : Footprint) (path : String) : Effect :=
  if path.toList.contains '\x00' then ⟨⟨[], .error .nulInPath⟩, none⟩
  else
    match f.input with
    | .error e => ⟨⟨[], .error (.file e path)⟩, none⟩
    | .ok b =>
      match (outputBytes b).outcome with
      | .error e => ⟨⟨(outputBytes b).log, .error e⟩, none⟩
      | .ok code =>
        match f.output with
        | .error e => ⟨⟨(outputBytes b).log, .error (.file e (outputPath path))⟩, none⟩
        | .ok names => ⟨⟨(outputBytes b).log, .ok (outputPath path)⟩, some ⟨names, code⟩⟩

/-- A run does nothing but what its footprint says. -/
theorem generateFile_eq_effect (t : FileTree) (path : String) :
    (generateFile .ofTree path).run t =
      (((footprint t path).effect path).result,
        Write.apply t ((footprint t path).effect path).write) := by
  rw [run_generateFile]
  unfold Footprint.effect footprint
  split_ifs
  · rfl
  cases t.read path with
  | error e => rfl
  | ok b =>
    dsimp only
    cases (outputBytes b).outcome with
    | error e => rfl
    | ok code =>
      simp only [FileTree.write_eq]
      cases t.target (outputPath path) <;> rfl

theorem Footprint.of_write {f : Footprint} {path : String} {w : Write}
    (h : (f.effect path).write = some w) : (∃ b, f.input = .ok b) ∧ f.output = .ok w.names := by
  unfold effect at h
  split_ifs at h
  split at h
  · cases h
  next b hinput =>
  split at h
  · cases h
  split at h
  · cases h
  next names houtput =>
  obtain rfl := Option.some.inj h
  exact ⟨⟨b, hinput⟩, houtput⟩

/-- The output of a run is no part of what the same run reads. -/
theorem footprint_apply_self (t : FileTree) (path : String) :
    footprint (Write.apply t ((footprint t path).effect path).write) path = footprint t path := by
  cases hwrite : ((footprint t path).effect path).write with
  | none => rfl
  | some w =>
    obtain ⟨⟨b, hread⟩, htarget⟩ := Footprint.of_write hwrite
    obtain ⟨hlocate, hentry⟩ := FileTree.target_eq_ok_iff.mp htarget
    have houtput : (t.put w.names (.file w.bytes)).target (outputPath path) = .ok w.names := by
      rw [FileTree.target_eq_ok_iff]
      refine ⟨FileTree.locate_put _ hentry hlocate, ?_⟩
      rw [FileTree.get?_put_self t (FileTree.ne_nil_of_not_directory hentry)]
      simp
    have hinput : (t.put w.names (.file w.bytes)).read path = t.read path := by
      cases hinput : t.locate path with
      | error e =>
        have hfails : t.read path = .error e := by simp only [FileTree.read, hinput]
        cases hfails.symm.trans hread
      | ok names =>
        have hother : names ≠ w.names :=
          FileTree.locate_ne_of_append (by decide) (by decide) hinput hlocate
        refine FileTree.read_congr ((FileTree.locate_put _ hentry hinput).trans hinput.symm) ?_
        intro names' hnames'
        obtain rfl := Except.ok.inj (hinput.symm.trans hnames')
        exact FileTree.get?_put_of_ne t hother _
    rw [Write.apply, footprint, hinput, houtput, ← htarget]
    rfl

theorem two_lt_length_outputPath (path : String) : 2 < (outputPath path).length := by
  simp only [outputPath, String.length_append]
  exact Nat.lt_add_left _ (by decide)

/-- Nor is it part of what a run for another plain name reads, if it is not that very name. -/
theorem footprint_apply_of_plain {t : FileTree} {p q : String} (hp : '/' ∉ p.toList)
    (hq : '/' ∉ q.toList) (hne : p ≠ q) (hindependent : q ≠ outputPath p) :
    footprint (Write.apply t ((footprint t p).effect p).write) q = footprint t q := by
  have houtput {s : String} (hs : '/' ∉ s.toList) : '/' ∉ (outputPath s).toList := by
    simpa [outputPath] using hs
  cases hwrite : ((footprint t p).effect p).write with
  | none => rfl
  | some w =>
    obtain ⟨-, htarget⟩ := Footprint.of_write hwrite
    have hnames : w.names = t.workingDirectory ++ [outputPath p] :=
      FileTree.target_of_plain (houtput hp) (two_lt_length_outputPath p) htarget
    have hlocate {s : String} (hs : '/' ∉ s.toList) :
        (t.put w.names (.file w.bytes)).locate s = t.locate s :=
      FileTree.locate_of_plain hs rfl (FileTree.get?_put_of_ne t (by simp [hnames]) _)
    have hentry {s : String} (hs : '/' ∉ s.toList) (hother : s ≠ outputPath p)
        (names : List String) (hlocate : t.locate s = .ok names) :
        (t.put w.names (.file w.bytes)).get? names = t.get? names :=
      FileTree.get?_put_of_ne t (hnames ▸ FileTree.ne_of_plain hs hother hlocate) _
    have hinput : (t.put w.names (.file w.bytes)).read q = t.read q :=
      FileTree.read_congr (hlocate hq) (hentry hq hindependent)
    have hbeside : outputPath q ≠ outputPath p := by
      simpa [outputPath] using hne.symm
    have houtput : (t.put w.names (.file w.bytes)).target (outputPath q) =
        t.target (outputPath q) :=
      FileTree.target_congr (hlocate (houtput hq)) (hentry (houtput hq) hbeside)
    rw [Write.apply, footprint, hinput, houtput]
    rfl

/-! Runs -/

/-- What is written for some arguments. -/
def writeOf (t : FileTree) (arguments : List String) : Option Write :=
  match Request.ofList arguments with
  | .generate a => ((footprint t a.path).effect a.path).write
  | _ => none

theorem files_runOn (t : FileTree) (level : Option Level) (arguments : List String) :
    (runOn t level arguments).2 = Write.apply t (writeOf t arguments) := by
  rw [runOn_eq, writeOf]
  cases Request.ofList arguments with
  | generate a => simp only [generateFile_eq_effect]
  | _ => rfl

/-- Two runs end in the same way and print the same. -/
structure SameEnd (r r' : Outcome × FileTree) : Prop where
  status : r'.1.status = r.1.status
  out : r'.1.out = r.1.out

theorem sameEnd_ofGeneration (level level' : Level) (result : Traced RunError String)
    (t t' : FileTree) :
    SameEnd (.ofGeneration level result, t) (.ofGeneration level' result, t') := by
  unfold Outcome.ofGeneration
  cases result.outcome with
  | ok path => exact ⟨rfl, rfl⟩
  | error e =>
    dsimp only
    split_ifs <;> exact ⟨rfl, rfl⟩

/-- The files look the same to whatever is asked for. -/
def FindsSame (t t' : FileTree) (arguments : List String) : Prop :=
  ∀ a, Request.ofList arguments = .generate a → footprint t' a.path = footprint t a.path

theorem FindsSame.writeOf_eq {t t' : FileTree} {arguments : List String}
    (h : FindsSame t t' arguments) : writeOf t' arguments = writeOf t arguments := by
  unfold writeOf
  cases hrequest : Request.ofList arguments with
  | generate a => simp only [h a hrequest]
  | _ => rfl

/-- Runs that find the same end in the same way, at whatever level they log. -/
theorem FindsSame.sameEnd {t t' : FileTree} {arguments : List String}
    (h : FindsSame t t' arguments) (level level' : Option Level) :
    SameEnd (runOn t level arguments) (runOn t' level' arguments) := by
  rw [runOn_eq, runOn_eq]
  cases hrequest : Request.ofList arguments with
  | help => exact ⟨rfl, rfl⟩
  | malformed => exact ⟨rfl, rfl⟩
  | generate a =>
    simp only [generateFile_eq_effect, h a hrequest]
    exact sameEnd_ofGeneration _ _ _ _ _

theorem findsSame_self (t : FileTree) (arguments : List String) :
    FindsSame t (Write.apply t (writeOf t arguments)) arguments := by
  intro a hrequest
  simp only [writeOf, hrequest]
  exact footprint_apply_self t a.path

theorem Write.apply_apply (t : FileTree) (w : Option Write) :
    Write.apply (Write.apply t w) w = Write.apply t w := by
  cases w with
  | none => rfl
  | some w => exact FileTree.put_put t w.names _ _

/-- A run once more, at any level. -/
structure Repeats (t : FileTree) (arguments : List String) : Prop where
  sameEnd : ∀ level level', SameEnd (runOn t level arguments)
    (runOn (runOn t level arguments).2 level' arguments)
  files : ∀ level level', FileTree.SameFiles (runOn t level arguments).2
    (runOn (runOn t level arguments).2 level' arguments).2

theorem repeats (t : FileTree) (arguments : List String) : Repeats t arguments where
  sameEnd level level' := by
    rw [files_runOn]
    exact (findsSame_self t arguments).sameEnd level level'
  files level level' := by
    rw [files_runOn, files_runOn, (findsSame_self t arguments).writeOf_eq, Write.apply_apply]
    exact .refl _

/-- Two runs, one after the other in either order and at any levels. -/
structure Commute (t : FileTree) (arguments arguments' : List String) : Prop where
  first : ∀ level level' level'', SameEnd (runOn t level arguments)
    (runOn (runOn t level' arguments').2 level'' arguments)
  second : ∀ level level' level'', SameEnd (runOn t level arguments')
    (runOn (runOn t level' arguments).2 level'' arguments')
  files : ∀ level level' level'' level''', FileTree.SameFiles
    (runOn (runOn t level arguments).2 level' arguments').2
    (runOn (runOn t level'' arguments').2 level''' arguments).2

theorem commute_of_findsSame {t : FileTree} {arguments arguments' : List String}
    (h : FindsSame t (Write.apply t (writeOf t arguments')) arguments)
    (h' : FindsSame t (Write.apply t (writeOf t arguments)) arguments')
    (hfiles : FileTree.SameFiles
      (Write.apply (Write.apply t (writeOf t arguments)) (writeOf t arguments'))
      (Write.apply (Write.apply t (writeOf t arguments')) (writeOf t arguments))) :
    Commute t arguments arguments' where
  first level level' level'' := by
    rw [files_runOn]
    exact h.sameEnd level level''
  second level level' level'' := by
    rw [files_runOn]
    exact h'.sameEnd level level''
  files level level' level'' level''' := by
    simp only [files_runOn, h.writeOf_eq, h'.writeOf_eq]
    exact hfiles

/-! Names -/

/-- The file that a single argument leads to. A flag is no name, so it leads to the default one. -/
def readPath (argument : String) : String :=
  if isVerbose argument then defaultPath else argument

theorem path_eq_readPath {argument : String} {a : Arguments}
    (h : Request.ofList [argument] = .generate a) : a.path = readPath argument := by
  have hsome := ((Request.ofList_eq_generate_iff [argument] a).mp h).2
  unfold readPath
  cases hverbose : isVerbose argument with
  | true =>
    have hothers : [argument].filter (!isVerbose ·) = [] := by simp [hverbose]
    simp only [Arguments.ofList?, hothers] at hsome
    rw [← Option.some.inj hsome]
    rfl
  | false =>
    have hothers : [argument].filter (!isVerbose ·) = [argument] := by simp [hverbose]
    simp only [Arguments.ofList?, hothers] at hsome
    split_ifs at hsome
    rw [← Option.some.inj hsome]
    rfl

theorem readPath_plain {argument : String} (h : '/' ∉ argument.toList) :
    '/' ∉ (readPath argument).toList := by
  unfold readPath
  split_ifs
  · decide
  · exact h

/-- A run on a plain name finds the same after a run on another, or on the same. -/
theorem findsSame_of_plain {t : FileTree} {p q : String} (hp : '/' ∉ p.toList)
    (hq : '/' ∉ q.toList) (hindependent : readPath q ≠ outputPath (readPath p)) :
    FindsSame t (Write.apply t (writeOf t [p])) [q] := by
  intro b hb
  cases hrequest : Request.ofList [p] with
  | generate a =>
    simp only [writeOf, hrequest]
    rw [path_eq_readPath hb, path_eq_readPath hrequest]
    by_cases hsame : readPath p = readPath q
    · rw [hsame]
      exact footprint_apply_self t (readPath q)
    · exact footprint_apply_of_plain (readPath_plain hp) (readPath_plain hq) hsame hindependent
  | _ =>
    simp only [writeOf, hrequest]
    rfl

theorem names_of_writeOf {t : FileTree} {p : String} {w : Write} (hp : '/' ∉ p.toList)
    (h : writeOf t [p] = some w) :
    w.names = t.workingDirectory ++ [outputPath (readPath p)] ∧
      ((footprint t (readPath p)).effect (readPath p)).write = some w := by
  unfold writeOf at h
  split at h
  · next a hrequest =>
    rw [path_eq_readPath hrequest] at h
    refine ⟨FileTree.target_of_plain ?_ (two_lt_length_outputPath _) (Footprint.of_write h).2, h⟩
    simpa [outputPath] using readPath_plain hp
  · cases h

/-- The writes for two plain names are to different files, or they are the same write. -/
theorem sameFiles_of_plain (t : FileTree) {p q : String} (hp : '/' ∉ p.toList)
    (hq : '/' ∉ q.toList) :
    FileTree.SameFiles (Write.apply (Write.apply t (writeOf t [p])) (writeOf t [q]))
      (Write.apply (Write.apply t (writeOf t [q])) (writeOf t [p])) := by
  cases hfirst : writeOf t [p] with
  | none => exact .refl _
  | some w =>
    cases hsecond : writeOf t [q] with
    | none => exact .refl _
    | some w' =>
      obtain ⟨hnames, hwrite⟩ := names_of_writeOf hp hfirst
      obtain ⟨hnames', hwrite'⟩ := names_of_writeOf hq hsecond
      by_cases hsame : readPath p = readPath q
      · rw [hsame, hwrite'] at hwrite
        rw [Option.some.inj hwrite]
        exact .refl _
      · refine FileTree.sameFiles_put_comm t ?_ _ _
        simpa [hnames, hnames', outputPath] using hsame

/-- A run can be repeated: the second time it ends as it did the first time, and no file changes any
more. And two runs on plain names commute, unless one reads what the other writes: in either order
each ends as it would alone, and both leave the same files. -/
theorem runs_repeat_and_commute (t : FileTree) :
    (∀ arguments, Repeats t arguments) ∧
      ∀ p q : String, '/' ∉ p.toList → '/' ∉ q.toList →
        readPath q ≠ outputPath (readPath p) → readPath p ≠ outputPath (readPath q) →
        Commute t [p] [q] := by
  refine ⟨repeats t, fun p q hp hq hwrites hwrites' => ?_⟩
  exact commute_of_findsSame (findsSame_of_plain hq hp hwrites') (findsSame_of_plain hp hq hwrites)
    (sameFiles_of_plain t hp hq)

/-- A flag, which leads to the default file, and the name of another file; both runs write. -/
theorem runs_repeat_and_commute_defaultPath :
    let t : FileTree := ⟨[(["w"], .directory),
      (["w", "test.json"], .file (Utf8.encode "\x7b\x7d".toList)),
      (["w", "d.json"], .file (Utf8.encode "[\x7b\x7d]".toList))], ["w"]⟩
    (runOn t none ["-v"]).1.status = .exited 0 ∧ (runOn t none ["d.json"]).1.status = .exited 0 ∧
      Commute t ["-v"] ["d.json"] := by
  intro t
  refine ⟨by decide +kernel, by decide +kernel, ?_⟩
  exact (runs_repeat_and_commute t).2 "-v" "d.json" (by decide) (by decide) (by decide) (by decide)

/-- A flag has no slash in it either, but the file that it leads to has an output like any other,
and a run on that output does not commute with it. -/
theorem flag_not_commute :
    let t : FileTree := ⟨[(["test.json"], .file (Utf8.encode "\x7b\x7d".toList)),
      (["test.json_test.txt"], .file (Utf8.encode "[]".toList))], []⟩
    let p := "-v"
    let q := "test.json_test.txt"
    '/' ∉ p.toList ∧ '/' ∉ q.toList ∧ p ≠ q ∧ q ≠ outputPath p ∧ p ≠ outputPath q ∧
      ¬ Commute t [p] [q] := by
  intro t p q
  refine ⟨by decide, by decide, by decide, by decide, by decide, fun h => ?_⟩
  have halone : (runOn t none [q]).1.status = .exited 0 := by decide +kernel
  have hafter : (runOn (runOn t none [p]).2 none [q]).1.status = .exited 1 := by decide +kernel
  have hsame := (h.second none none none).status
  rw [halone, hafter] at hsame
  cases hsame

end JsonAssert.Command
