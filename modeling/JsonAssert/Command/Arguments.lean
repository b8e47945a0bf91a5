/-! The command's arguments. -/
namespace JsonAssert.Command

def usage : String := "usage: jtg-gen [-v|--verbose] [path]"

def defaultPath : String := "test.json"

structure Arguments where
  path : String
  verbose : Bool
  deriving DecidableEq, Repr

def isHelp (argument : String) : Bool := argument == "-h" || argument == "--help"

def isVerbose (argument : String) : Bool := argument == "-v" || argument == "--verbose"

def isOption (argument : String) : Bool := argument.toList.head? == some '-'

/-- The path, if one is given, and whether to be verbose. No other option is known, and there is no
second path. -/
def Arguments.ofList? (arguments : List String) : Option Arguments :=
  let others := arguments.filter (!isVerbose ·)
  let verbose := arguments.any isVerbose
  if others.any isOption then none
  else
    match others with
    | [] => some ⟨defaultPath, verbose⟩
    | [path] => some ⟨path, verbose⟩
    | _ => none

/-- What is asked of the command. A call for help counts wherever it stands. -/
inductive Request where
  | help
  | malformed
  | generate (arguments : Arguments)
  deriving DecidableEq, Repr

def Request.ofList (arguments : List String) : Request :=
  if arguments.any isHelp then .help
  else
    match Arguments.ofList? arguments with
    | none => .malformed
    | some a => .generate a

end JsonAssert.Command
