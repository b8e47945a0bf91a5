import JsonAssert.Proofs.Command.Arguments

/-! The arguments one by one. A scan gives up at the first option that it does not know, and counts
the paths only at the end; what comes of it depends on what the arguments are and not on where they
stand. -/
namespace JsonAssert.Command

/-! Kinds of arguments -/

theorem isVerbose_iff (argument : String) :
    isVerbose argument = true ↔ argument = "-v" ∨ argument = "--verbose" := by
  simp [isVerbose]

theorem isOption_iff (argument : String) :
    isOption argument = true ↔ ∃ rest, argument.toList = '-' :: rest := by
  rw [isOption, beq_iff_eq, List.head?_eq_some_iff]

theorem isOption_of_isVerbose {argument : String} (h : isVerbose argument = true) :
    isOption argument = true := by
  rcases (isVerbose_iff argument).mp h with rfl | rfl
  · rfl
  · rfl

/-- An option that is no flag for verbosity. -/
def isUnknown (argument : String) : Bool := isOption argument && !isVerbose argument

/-- The arguments that are no options, the empty one among them. -/
def pathsOf (arguments : List String) : List String := arguments.filter (!isOption ·)

/-- Somewhere among the arguments there is such an option. -/
def HasUnknown (arguments : List String) : Prop :=
  ∃ a ∈ arguments, (∃ rest, a.toList = '-' :: rest) ∧ a ≠ "-v" ∧ a ≠ "--verbose"

theorem any_isUnknown_iff (arguments : List String) :
    arguments.any isUnknown = true ↔ HasUnknown arguments := by
  simp only [HasUnknown, List.any_eq_true, isUnknown, Bool.and_eq_true, isOption_iff,
    Bool.not_eq_true', ← Bool.not_eq_true, isVerbose_iff, not_or]

theorem any_isVerbose_iff (arguments : List String) :
    arguments.any isVerbose = true ↔ "-v" ∈ arguments ∨ "--verbose" ∈ arguments :=
  any_either_iff arguments "-v" "--verbose"

/-! The scan -/

/-- What the arguments looked at so far have told. -/
structure Scan where
  paths : List String
  verbose : Bool

namespace Scan

def step (s : Scan) (argument : String) : Option Scan :=
  if isVerbose argument then some { s with verbose := true }
  else if isOption argument then none
  else some { s with paths := s.paths ++ [argument] }

/-- What is asked for when no argument is left. -/
def finish (s : Scan) : Option Arguments :=
  match s.paths with
  | [] => some ⟨defaultPath, s.verbose⟩
  | [path] => some ⟨path, s.verbose⟩
  | _ => none

theorem step_eq (s : Scan) (argument : String) :
    s.step argument =
      if isUnknown argument then none
      else some ⟨s.paths ++ pathsOf [argument], s.verbose || isVerbose argument⟩ := by
  cases hverbose : isVerbose argument with
  | true =>
    have hoption := isOption_of_isVerbose hverbose
    simp [step, isUnknown, pathsOf, hverbose, hoption]
  | false =>
    cases hoption : isOption argument <;> simp [step, isUnknown, pathsOf, hverbose, hoption]

/-- A scan ends early exactly when an unknown option is left, and else collects what is left. -/
theorem foldlM_step (s : Scan) (arguments : List String) :
    arguments.foldlM step s =
      if arguments.any isUnknown then none
      else some ⟨s.paths ++ pathsOf arguments, s.verbose || arguments.any isVerbose⟩ := by
  induction arguments generalizing s with
  | nil => simp [pathsOf]
  | cons argument arguments ih =>
    rw [List.foldlM_cons, step_eq, List.any_cons, List.any_cons]
    cases hunknown : isUnknown argument with
    | true => rfl
    | false =>
      have hpaths : pathsOf (argument :: arguments) =
          pathsOf [argument] ++ pathsOf arguments :=
        List.filter_append [argument] arguments
      simp [ih, hpaths, Bool.or_assoc]

theorem finish_eq_none_iff (s : Scan) : s.finish = none ↔ 1 < s.paths.length := by
  obtain ⟨paths, verbose⟩ := s
  rcases paths with _ | ⟨path, _ | ⟨second, rest⟩⟩ <;> simp [finish]

theorem finish_eq_some_iff (s : Scan) (a : Arguments) :
    s.finish = some a ↔
      (s.paths = [a.path] ∨ s.paths = [] ∧ a.path = defaultPath) ∧ a.verbose = s.verbose := by
  obtain ⟨paths, verbose⟩ := s
  obtain ⟨path, verbose'⟩ := a
  rcases paths with _ | ⟨first, _ | ⟨second, rest⟩⟩ <;> simp [finish, eq_comm]

/-- Of one path or none there is only one order. -/
theorem finish_of_perm {paths others : List String} (h : paths.Perm others) (verbose : Bool) :
    finish ⟨paths, verbose⟩ = finish ⟨others, verbose⟩ := by
  rcases paths with _ | ⟨path, _ | ⟨second, rest⟩⟩
  · rw [List.nil_perm.mp h]
  · rw [List.singleton_perm.mp h]
  · have hlength := h.length_eq
    simp only [List.length_cons] at hlength
    rw [(finish_eq_none_iff ⟨others, verbose⟩).mpr (by simp only; omega)]
    rfl

end Scan

/-- The arguments as they are scanned. -/
def scan (arguments : List String) : Option Arguments := do
  (← arguments.foldlM Scan.step ⟨[], false⟩).finish

theorem scan_eq (arguments : List String) :
    scan arguments =
      if arguments.any isUnknown then none
      else Scan.finish ⟨pathsOf arguments, arguments.any isVerbose⟩ := by
  rw [scan, Scan.foldlM_step]
  split_ifs <;> simp

/-- The scan comes to what a look at all arguments at once comes to. -/
theorem ofList?_eq_scan (arguments : List String) :
    Arguments.ofList? arguments = scan arguments := by
  have hunknown : (arguments.filter (!isVerbose ·)).any isOption = arguments.any isUnknown := by
    rw [List.any_filter]
    exact congrArg arguments.any (funext fun a => Bool.and_comm _ _)
  rw [scan_eq, Arguments.ofList?, hunknown]
  split_ifs with hany
  · rfl
  · have hothers : arguments.filter (!isVerbose ·) = pathsOf arguments := by
      apply List.filter_congr
      intro argument hmem
      have hknown : ¬ isUnknown argument = true := fun h => hany (List.any_eq_true.mpr ⟨_, hmem, h⟩)
      cases hverbose : isVerbose argument with
      | true => rw [isOption_of_isVerbose hverbose]
      | false => simpa [isUnknown, hverbose] using hknown
    rw [hothers]
    rfl

/-! Order and flags -/

theorem scan_of_perm {arguments others : List String} (h : arguments.Perm others) :
    scan arguments = scan others := by
  have hpaths : (pathsOf arguments).Perm (pathsOf others) := h.filter _
  rw [scan_eq, scan_eq, h.any_eq, h.any_eq, Scan.finish_of_perm hpaths]

theorem verbose_of_scan {arguments : List String} {a : Arguments} (h : scan arguments = some a) :
    a.verbose = arguments.any isVerbose := by
  rw [scan_eq] at h
  split_ifs at h
  exact ((Scan.finish_eq_some_iff _ a).mp h).2

/-- The flags decide nothing but whether to be verbose. -/
theorem ofList?_eq_plain (arguments : List String) :
    Arguments.ofList? arguments =
      (Arguments.ofList? (plain arguments)).map
        fun a => { a with verbose := arguments.any isVerbose } := by
  rw [Arguments.ofList?_plain, Option.map_map]
  cases h : Arguments.ofList? arguments with
  | none => rfl
  | some a =>
    rw [ofList?_eq_scan] at h
    simp [Arguments.quiet, ← verbose_of_scan h]

/-- The arguments are refused for an option that is not known, or for a second path, wherever these
stand. Otherwise the one path that is given is taken, or that of the default, and the flags say
whether to be verbose. So any order asks for the same, and so do any flags but for being verbose. -/
theorem arguments_read_in_any_order (arguments : List String) :
    Arguments.ofList? arguments = scan arguments ∧
      (Arguments.ofList? arguments = none ↔
        HasUnknown arguments ∨ 1 < (pathsOf arguments).length) ∧
      (∀ a, Arguments.ofList? arguments = some a ↔
        ¬ HasUnknown arguments ∧
          (pathsOf arguments = [a.path] ∨ pathsOf arguments = [] ∧ a.path = defaultPath) ∧
          (a.verbose = true ↔ "-v" ∈ arguments ∨ "--verbose" ∈ arguments)) ∧
      (∀ others, arguments.Perm others →
        Arguments.ofList? others = Arguments.ofList? arguments) ∧
      ∀ others, plain others = plain arguments →
        Arguments.ofList? others = (Arguments.ofList? arguments).map
          fun a => { a with verbose := others.any isVerbose } := by
  have hscan := ofList?_eq_scan arguments
  have heq := scan_eq arguments
  refine ⟨hscan, ?_, ?_, ?_, ?_⟩
  · rw [hscan, heq, ← any_isUnknown_iff]
    split_ifs with hany
    · simp [hany]
    · simp [hany, Scan.finish_eq_none_iff]
  · intro a
    rw [hscan, heq, ← any_isUnknown_iff, ← any_isVerbose_iff, ← Bool.eq_iff_iff]
    split_ifs with hany
    · simp [hany]
    · rw [Scan.finish_eq_some_iff]
      simp [hany]
  · intro others hperm
    rw [hscan, ofList?_eq_scan, scan_of_perm hperm]
  · intro others hplain
    rw [ofList?_eq_plain others, hplain, Arguments.ofList?_plain, Option.map_map]
    rfl

/-- The empty argument is a path, and a lone dash is no flag. -/
theorem arguments_read_in_any_order_emptyPath :
    let arguments := ["-v", ""]
    let others := ["--verbose", "", "-v", "-v"]
    arguments.Perm ["", "-v"] ∧ plain others = plain arguments ∧
      Arguments.ofList? ["", "-v"] = some ⟨"", true⟩ ∧
      Arguments.ofList? others = some ⟨"", true⟩ ∧
      Arguments.ofList? ["", "-"] = none := by
  intro arguments others
  have hperm : arguments.Perm ["", "-v"] := .swap _ _ _
  have hplain : plain others = plain arguments := by decide
  have hread : Arguments.ofList? arguments = some ⟨"", true⟩ := by decide
  have hdash : HasUnknown ["", "-"] := ⟨"-", by simp, ⟨[], rfl⟩, by decide, by decide⟩
  obtain ⟨-, -, -, horder, hflags⟩ := arguments_read_in_any_order arguments
  refine ⟨hperm, hplain, ?_, ?_, ?_⟩
  · rw [horder _ hperm, hread]
  · rw [hflags _ hplain, hread]
    decide
  · exact (arguments_read_in_any_order ["", "-"]).2.1.mpr (.inl hdash)

end JsonAssert.Command
