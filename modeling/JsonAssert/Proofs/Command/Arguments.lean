import Mathlib
import JsonAssert.Command.Arguments

/-! What is asked of the command. A call for help goes before everything else; the flags for
verbosity, wherever they stand, decide nothing but whether to be verbose. -/
namespace JsonAssert.Command

/-- Somewhere among the arguments there is a call for help. -/
def AsksHelp (arguments : List String) : Prop := "-h" ∈ arguments ∨ "--help" ∈ arguments

theorem any_either_iff (arguments : List String) (short long : String) :
    arguments.any (fun a => a == short || a == long) = true ↔
      short ∈ arguments ∨ long ∈ arguments := by
  simp only [List.any_eq_true, Bool.or_eq_true, beq_iff_eq]
  constructor
  · rintro ⟨argument, hmem, rfl | rfl⟩
    · exact .inl hmem
    · exact .inr hmem
  · rintro (hmem | hmem)
    · exact ⟨_, hmem, .inl rfl⟩
    · exact ⟨_, hmem, .inr rfl⟩

theorem any_isHelp_iff (arguments : List String) :
    arguments.any isHelp = true ↔ AsksHelp arguments :=
  any_either_iff arguments "-h" "--help"

namespace Request

theorem ofList_of_asksHelp {arguments : List String} (h : AsksHelp arguments) :
    ofList arguments = .help :=
  if_pos ((any_isHelp_iff arguments).mpr h)

theorem ofList_of_not_asksHelp {arguments : List String} (h : ¬ AsksHelp arguments) :
    ofList arguments = (Arguments.ofList? arguments).elim .malformed .generate := by
  rw [ofList, if_neg (mt (any_isHelp_iff arguments).mp h)]
  cases Arguments.ofList? arguments <;> rfl

theorem ofList_eq_help_iff (arguments : List String) :
    ofList arguments = .help ↔ AsksHelp arguments := by
  refine ⟨fun h => ?_, ofList_of_asksHelp⟩
  by_contra hnone
  rw [ofList_of_not_asksHelp hnone] at h
  cases hargs : Arguments.ofList? arguments <;> simp [hargs] at h

theorem ofList_eq_malformed_iff (arguments : List String) :
    ofList arguments = .malformed ↔
      ¬ AsksHelp arguments ∧ Arguments.ofList? arguments = none := by
  by_cases hhelp : AsksHelp arguments
  · simp [ofList_of_asksHelp hhelp, hhelp]
  · rw [ofList_of_not_asksHelp hhelp]
    cases Arguments.ofList? arguments <;> simp [hhelp]

theorem ofList_eq_generate_iff (arguments : List String) (a : Arguments) :
    ofList arguments = .generate a ↔
      ¬ AsksHelp arguments ∧ Arguments.ofList? arguments = some a := by
  by_cases hhelp : AsksHelp arguments
  · simp [ofList_of_asksHelp hhelp, hhelp]
  · rw [ofList_of_not_asksHelp hhelp]
    cases Arguments.ofList? arguments <;> simp [hhelp]

end Request

/-! Verbosity -/

/-- The arguments without the flags for verbosity. -/
def plain (arguments : List String) : List String := arguments.filter (!isVerbose ·)

def Arguments.quiet (a : Arguments) : Arguments := { a with verbose := false }

def Request.quiet : Request → Request
  | .generate a => .generate a.quiet
  | request => request

theorem asksHelp_plain (arguments : List String) :
    AsksHelp (plain arguments) ↔ AsksHelp arguments := by
  have hshort : isVerbose "-h" = false := by decide
  have hlong : isVerbose "--help" = false := by decide
  simp [AsksHelp, plain, hshort, hlong]

theorem Arguments.ofList?_plain (arguments : List String) :
    Arguments.ofList? (plain arguments) = (Arguments.ofList? arguments).map Arguments.quiet := by
  have hnone : (arguments.filter (!isVerbose ·)).any isVerbose = false := by simp
  have hfilter : (arguments.filter (!isVerbose ·)).filter (!isVerbose ·) =
      arguments.filter (!isVerbose ·) := by simp
  unfold plain Arguments.ofList?
  rw [hnone, hfilter]
  dsimp only
  split_ifs
  · rfl
  · split <;> rfl

/-- Without the flags for verbosity the same is asked, less verbosely. -/
theorem Request.ofList_plain (arguments : List String) :
    ofList (plain arguments) = (ofList arguments).quiet := by
  by_cases hhelp : AsksHelp arguments
  · rw [ofList_of_asksHelp hhelp, ofList_of_asksHelp ((asksHelp_plain arguments).mpr hhelp)]
    rfl
  · rw [ofList_of_not_asksHelp hhelp,
      ofList_of_not_asksHelp (mt (asksHelp_plain arguments).mp hhelp), Arguments.ofList?_plain]
    cases Arguments.ofList? arguments <;> rfl

end JsonAssert.Command
