import JsonAssert.Command.Run
import JsonAssert.Proofs.Assertion.Trace
import JsonAssert.Proofs.Command.Messages

/-! Verbosity. A run that is verbose tells what it does, line by line, and does nothing else that
another would not do. Whether it is does not depend on its own flags alone: the first run of a
process that has a file to generate decides for all that follow. -/
namespace JsonAssert.Command

/-! Lines for debugging -/

/-- A line of the log; all that is logged is for debugging. -/
def isDebug (line : List Char) : Bool := "DEBUG ".toList.isPrefixOf line

/-- The lines of a text, without those for debugging. -/
def plainLines (text : String) : List (List Char) :=
  (text.toList.splitOn '\n').filter (!isDebug ·)

def HasDebug (text : String) : Prop := ∃ line ∈ text.toList.splitOn '\n', isDebug line = true

theorem isDebug_line (r : LogRecord) : isDebug r.line.toList = true := by
  rw [isDebug, List.isPrefixOf_iff_prefix]
  simp only [LogRecord.line, String.toList_append, List.append_assoc]
  exact List.prefix_append _ _

theorem plainLines_log {log : List LogRecord} (h : ∀ r ∈ log, IsPrinted r.line.toList)
    (s : String) : plainLines (unlines (log.map LogRecord.line) ++ s) = plainLines s := by
  have hlines : ∀ line ∈ log.map LogRecord.line, IsPrinted line.toList := List.forall_mem_map.mpr h
  have hdebug : ((log.map LogRecord.line).map String.toList).filter (!isDebug ·) = [] := by
    simp [isDebug_line]
  rw [plainLines, splitOn_unlines_append hlines, List.filter_append, hdebug]
  rfl

/-- A printed line is the only one of the text that it ends. -/
theorem not_hasDebug_line {line : String} (hline : IsPrinted line.toList)
    (hplain : isDebug line.toList = false) : ¬ HasDebug (line ++ "\n") := by
  have hsplit : (line ++ "\n").toList.splitOn '\n' = [line.toList, []] := by
    have hone : ∀ l ∈ [line], IsPrinted l.toList := by simpa using hline
    have hlines := splitOn_unlines hone
    simpa [unlines] using hlines
  rintro ⟨l, hl, hdebug⟩
  rw [hsplit] at hl
  rcases List.mem_pair.mp hl with rfl | rfl
  · exact Bool.noConfusion (hplain.symm.trans hdebug)
  · exact absurd hdebug (by decide)

theorem not_hasDebug_empty : ¬ HasDebug "" := by
  rintro ⟨line, hline, hdebug⟩
  rw [List.mem_singleton.mp hline] at hdebug
  exact absurd hdebug (by decide)

/-! One run -/

/-- What a run shows to those who pass over the lines for debugging. -/
structure View where
  status : Status
  out : String
  err : List (List Char)
  files : FileTree

def view (r : Outcome × FileTree) : View := ⟨r.1.status, r.1.out, plainLines r.1.err, r.2⟩

/-- What a run says of its end, behind the log. -/
def closing : Except RunError String → String
  | .ok _ => ""
  | .error e => if e.isFatal then "" else "Error: " ++ e.message ++ "\n"

theorem err_ofGeneration (level : Level) (result : Traced RunError String) :
    (Outcome.ofGeneration level result).err =
      unlines ((level.visible result.log).map LogRecord.line) ++ closing result.outcome := by
  have hlog : String.join ((level.visible result.log).map (·.line ++ "\n")) =
      unlines ((level.visible result.log).map LogRecord.line) := by
    rw [unlines, List.map_map]
    rfl
  unfold Outcome.ofGeneration closing
  rw [hlog]
  cases result.outcome with
  | ok path => rw [String.append_empty]
  | error e =>
    dsimp only
    split_ifs
    · rw [String.append_empty]
    · simp only [String.append_assoc]

theorem level_ofGeneration (level : Level) (result : Traced RunError String) :
    (Outcome.ofGeneration level result).level = some level := by
  unfold Outcome.ofGeneration
  cases result.outcome with
  | ok path => rfl
  | error e =>
    dsimp only
    split_ifs <;> rfl

/-- The level decides nothing but how much of the log is shown. -/
theorem view_ofGeneration {result : Traced RunError String}
    (hlog : ∀ r ∈ result.log, IsPrinted r.line.toList) (level level' : Level) (t : FileTree) :
    view (.ofGeneration level result, t) = view (.ofGeneration level' result, t) := by
  have hvisible (level : Level) : ∀ r ∈ level.visible result.log, IsPrinted r.line.toList :=
    fun r hr => hlog r (List.mem_of_mem_filter hr)
  simp only [view, err_ofGeneration, plainLines_log (hvisible _)]
  unfold Outcome.ofGeneration
  cases result.outcome with
  | ok path => rfl
  | error e =>
    dsimp only
    split_ifs <;> rfl

theorem IsLog.isPrinted {t : FileTree} {path : String} {log : List LogRecord}
    (h : IsLog t path log) : ∀ r ∈ log, IsPrinted r.line.toList := by
  cases h with
  | none _ => exact List.forall_mem_nil _
  | text _ => exact fun r hr => isPrinted_of_mem_log (by decide) hr

theorem Generates.isPrinted_log {t t' : FileTree} {path : String}
    {result : Traced RunError String} (h : Generates t path result t') :
    ∀ r ∈ result.log, IsPrinted r.line.toList := by
  cases h with
  | nul _ => exact List.forall_mem_nil _
  | fault _ hlog _ => exact hlog.isPrinted
  | done _ hlog _ _ => exact hlog.isPrinted

/-- Whatever a run says of its end, it is no line for debugging. -/
theorem Generates.not_hasDebug_closing {t t' : FileTree} {path : String}
    {result : Traced RunError String} (h : Generates t path result t') :
    ¬ HasDebug (closing result.outcome) := by
  cases h with
  | nul _ => exact not_hasDebug_empty
  | @fault _ e _ _ he =>
    have hplain : isDebug ("Error: " ++ e.message).toList = false := by
      simp [isDebug, List.isPrefixOf]
    rw [closing, if_neg (by simp [he.isFatal_eq_false])]
    exact not_hasDebug_line ((isPrinted_ofList (by decide)).append he.isPrinted_message) hplain
  | done _ _ _ _ => exact not_hasDebug_empty

/-! The level -/

def levelOf (verbose : Bool) : Level := if verbose then .debug else .warning

/-- Whether to be verbose, of what gets past its arguments. -/
def Request.verbose? : Request → Option Bool
  | .generate a => some a.verbose
  | _ => none

/-- A level that is set stays; else the first that has a file to generate sets it. -/
theorem level_runOn (t : FileTree) (level : Option Level) (arguments : List String) :
    (runOn t level arguments).1.level =
      level.or ((Request.ofList arguments).verbose?.map levelOf) := by
  rw [runOn_eq]
  cases Request.ofList arguments with
  | help => simp [Request.verbose?]
  | malformed => simp [Request.verbose?]
  | generate a =>
    simp only [level_ofGeneration, Request.verbose?]
    cases level <;> rfl

theorem visible_of_ne_debug {level : Level} (h : level ≠ .debug) (log : List LogRecord) :
    level.visible log = [] := by
  cases level with
  | debug => exact absurd rfl h
  | _ => simp [Level.visible, Level.rank, LogRecord.level]

theorem visible_debug (log : List LogRecord) : Level.debug.visible log = log := by
  simp [Level.visible, LogRecord.level]

/-- Lines for debugging show at their own level only. -/
theorem level_of_hasDebug {t : FileTree} {level : Option Level} {arguments : List String}
    (h : HasDebug (runOn t level arguments).1.err) :
    (runOn t level arguments).1.level = some .debug := by
  rw [runOn_eq] at h ⊢
  cases hrequest : Request.ofList arguments with
  | help =>
    rw [hrequest] at h
    exact absurd h not_hasDebug_empty
  | malformed =>
    rw [hrequest] at h
    exact absurd h (not_hasDebug_line (isPrinted_ofList (by decide)) (by decide))
  | generate a =>
    simp only [hrequest, err_ofGeneration, level_ofGeneration, Option.some.injEq] at h ⊢
    by_contra hlevel
    have hempty : unlines ([].map LogRecord.line) = "" := rfl
    rw [visible_of_ne_debug hlevel, hempty, String.empty_append] at h
    exact (generates t a.path).not_hasDebug_closing h

/-- What a run shows is what it would show without its flags, and where nothing else is verbose. -/
theorem view_runOn (t : FileTree) (level : Option Level) (arguments : List String) :
    view (runOn t level arguments) = view (runOn t (some .warning) (plain arguments)) := by
  rw [runOn_eq, runOn_eq, Request.ofList_plain]
  cases Request.ofList arguments with
  | help => rfl
  | malformed => rfl
  | generate a => exact view_ofGeneration (generates t a.path).isPrinted_log _ _ _

/-! The log of a run -/

/-- What a run that reaches its end well has logged: a line from the decoder, and one for each line
of its output. -/
def IsLogged (path : String) (r : Outcome × FileTree) : Prop :=
  ∃ text lines, r.1.err = unlines
      (((Source.text text).announcement :: lines.map (⟨.generator, ·⟩)).map LogRecord.line) ∧
    (∀ line ∈ lines, '\n' ∉ line.toList) ∧
    r.2.read (outputPath path) = .ok (Utf8.encode (unlines lines).toList)

theorem IsLog.eq {t : FileTree} {path text : String} {log : List LogRecord}
    (h : IsLog t path log) (htext : HoldsText t path text) :
    log = (generateFrom (.text text) defaultRoot).log := by
  cases h with
  | none hnone => exact absurd ⟨text, htext⟩ hnone
  | text htext' => rw [htext'.unique htext]

theorem isLogged_of_debug {t : FileTree} {level : Option Level} {arguments : List String}
    {a : Arguments} (hrequest : Request.ofList arguments = .generate a)
    (hlevel : (runOn t level arguments).1.level = some .debug)
    (hstatus : (runOn t level arguments).1.status = .exited 0) :
    IsLogged a.path (runOn t level arguments) := by
  have hgenerates := generates t a.path
  rw [runOn_eq, hrequest] at hlevel hstatus ⊢
  simp only [level_ofGeneration, Option.some.injEq] at hlevel hstatus ⊢
  rw [hlevel] at hstatus ⊢
  generalize (generateFile .ofTree a.path).run t = result at hgenerates hstatus ⊢
  obtain ⟨result, t'⟩ := result
  cases hgenerates with
  | nul _ => cases hstatus
  | fault _ _ he => simp [Outcome.ofGeneration, he.isFatal_eq_false] at hstatus
  | done _ hlog hcode hwrite =>
    obtain ⟨text, htext, hcode⟩ := hcode
    obtain ⟨lines, rfl, hprinted, hlines⟩ := exists_loggedLines (by decide) hcode
    refine ⟨text, lines, ?_, fun line hline => lineFeed_not_mem (hprinted line hline),
      FileTree.read_of_write hwrite⟩
    rw [err_ofGeneration, visible_debug, hlog.eq htext, hlines]
    exact String.append_empty

/-! Sequences of runs -/

/-- The call without its flags for verbosity. -/
def Call.plain (call : Call) : Call := { call with arguments := Command.plain call.arguments }

/-- Every process shows what one shows without any flags and with its level set beforehand, so two
of them are compared by way of that one. -/
theorem map_view_runAll (calls : List Call) (t : FileTree) (level : Option Level) :
    (runAll t level calls).map view =
      (runAll t (some .warning) (calls.map Call.plain)).map view := by
  induction calls generalizing t level with
  | nil => rfl
  | cons call calls ih =>
    have hview := view_runOn (call.prepare t) level call.arguments
    have hfiles : (runOn (call.prepare t) level call.arguments).2 =
        (runOn (call.prepare t) (some .warning) (Command.plain call.arguments)).2 :=
      congrArg View.files hview
    have hlevel := level_runOn (call.prepare t) (some .warning) (Command.plain call.arguments)
    simp only [runAll, List.map_cons, Call.plain]
    -- a level that is set stays, so the induction hypothesis meets the same one again
    rw [hview, hlevel, ih, hfiles]
    rfl

/-- Whether the first call that gets past its arguments is verbose. -/
def firstVerbose? (calls : List Call) : Option Bool :=
  calls.findSome? fun call => (Request.ofList call.arguments).verbose?

theorem firstVerbose?_cons (call : Call) (calls : List Call) :
    firstVerbose? (call :: calls) =
      (Request.ofList call.arguments).verbose?.or (firstVerbose? calls) := by
  rw [firstVerbose?, List.findSome?_cons]
  cases (Request.ofList call.arguments).verbose? <;> rfl

/-- Each call is run, at the level that the calls up to it have set. -/
theorem exists_run {calls : List Call} {i : ℕ} {call : Call} (h : calls[i]? = some call)
    (t : FileTree) (level : Option Level) :
    ∃ t' level', (runAll t level calls)[i]? = some (runOn t' level' call.arguments) ∧
      (runOn t' level' call.arguments).1.level =
        level.or ((firstVerbose? (calls.take (i + 1))).map levelOf) := by
  induction calls generalizing t level i with
  | nil => simp at h
  | cons first calls ih =>
    cases i with
    | zero =>
      obtain rfl : first = call := by simpa using h
      refine ⟨first.prepare t, level, rfl, ?_⟩
      rw [level_runOn]
      simp [firstVerbose?]
    | succ i =>
      obtain ⟨t', level', hrun, hlevel⟩ := ih (by simpa using h)
        (runOn (first.prepare t) level first.arguments).2
        (runOn (first.prepare t) level first.arguments).1.level
      refine ⟨t', level', hrun, ?_⟩
      rw [hlevel, level_runOn, List.take_succ_cons, firstVerbose?_cons, Option.map_or,
        Option.or_assoc]

/-! Noninterference -/

/-- What a run tells, when the first that got past its arguments, up to this one, was verbose or
was not. -/
structure IsTold (verbose? : Option Bool) (arguments : List String) (r : Outcome × FileTree) :
    Prop where
  level : r.1.level = verbose?.map levelOf
  debug : HasDebug r.1.err → verbose? = some true
  logged : verbose? = some true → r.1.status = .exited 0 →
    ∀ a, Request.ofList arguments = .generate a → IsLogged a.path r

theorem isTold_runOn {t : FileTree} {level : Option Level} {arguments : List String}
    {verbose? : Option Bool}
    (hlevel : (runOn t level arguments).1.level = verbose?.map levelOf) :
    IsTold verbose? arguments (runOn t level arguments) where
  level := hlevel
  debug h := by
    rw [level_of_hasDebug h] at hlevel
    obtain ⟨verbose, rfl, hverbose⟩ := Option.map_eq_some_iff.mp hlevel.symm
    cases verbose with
    | true => rfl
    | false => cases hverbose
  logged hverbose hstatus a hrequest := by
    rw [hverbose] at hlevel
    exact isLogged_of_debug hrequest hlevel hstatus

/-- Whatever flags for verbosity the runs of a process have, they end in the same way, print the
same and leave the same files; but for the lines for debugging, they also say the same of their
faults. Those lines are shown from the first run on that has a file to generate, if it is verbose,
and by none if it is not; and then each run that writes a file shows where every line of it
is from. -/
theorem verbosity_does_not_interfere (t : FileTree) (calls : List Call) :
    (∀ calls' : List Call, calls'.map Call.plain = calls.map Call.plain →
      (runAll t none calls').map view = (runAll t none calls).map view) ∧
    ∀ i call, calls[i]? = some call → ∃ r, (runAll t none calls)[i]? = some r ∧
      IsTold (firstVerbose? (calls.take (i + 1))) call.arguments r := by
  constructor
  · intro calls' hplain
    rw [map_view_runAll calls', map_view_runAll calls, hplain]
  · intro i call hcall
    obtain ⟨t', level', hrun, hlevel⟩ := exists_run hcall t none
    exact ⟨_, hrun, isTold_runOn hlevel⟩

/-- A call for help, a file that is missing, and then the same file. The second call is the first
that gets past its arguments, and its flag is heard in the third. -/
theorem verbosity_does_not_interfere_missingFile :
    let put := FileTree.put ["d.json"] (.file (Utf8.encode "[\x7b\x7d]".toList))
    let calls : List Call := [⟨id, ["-h"]⟩, ⟨id, ["d.json"]⟩, ⟨put, ["d.json"]⟩]
    let calls' : List Call := [⟨id, ["-h"]⟩, ⟨id, ["d.json", "-v"]⟩, ⟨put, ["d.json"]⟩]
    calls'.map Call.plain = calls.map Call.plain ∧
      (runAll .empty none calls').map view = (runAll .empty none calls).map view ∧
      ∃ r, (runAll .empty none calls')[2]? = some r ∧ r.1.status = .exited 0 ∧
        IsLogged "d.json" r := by
  intro put calls calls'
  have hplain : calls'.map Call.plain = calls.map Call.plain := rfl
  have hstatus : (runAll .empty none calls')[2]?.map (·.1.status) = some (.exited 0) := by
    decide +kernel
  have hverbose : firstVerbose? (calls'.take 3) = some true := by decide
  obtain ⟨r, hr, htold⟩ := (verbosity_does_not_interfere .empty calls').2 2 ⟨put, ["d.json"]⟩ rfl
  rw [hr] at hstatus
  have hexit : r.1.status = .exited 0 := Option.some.inj hstatus
  refine ⟨hplain, (verbosity_does_not_interfere .empty calls).1 calls' hplain, r, hr, hexit, ?_⟩
  exact htold.logged hverbose hexit ⟨"d.json", false⟩ (by decide)

end JsonAssert.Command
