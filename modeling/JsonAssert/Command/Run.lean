import JsonAssert.Assertion.Generation
import JsonAssert.Command.Arguments
import JsonAssert.Files.Path
import JsonAssert.Text.Display

/-! A run of the command: a file is read, and its assertions are written to another beside it. -/
namespace JsonAssert

/-- Line ends made one: a carriage return, alone or before a line feed, counts as a line feed. -/
def Newline.unify : List Char → List Char
  | [] => []
  | '\r' :: '\n' :: text => '\n' :: unify text
  | '\r' :: text => '\n' :: unify text
  | c :: text => c :: unify text

namespace Command

/-- Files to read and to write, in a file tree or in the world. -/
structure Storage (m : Type → Type) where
  read (path : String) : m (Except FileError (List UInt8))
  write (path : String) (bytes : List UInt8) : m (Except FileError Unit)

inductive RunError where
  | nulInPath
  | file (e : FileError) (path : String)
  | notUtf8 (m : Utf8.Malformed)
  | generate (e : GenerateError)
  deriving DecidableEq, Repr

namespace RunError

def message : RunError → String
  | .nulInPath => "embedded null byte"
  | .file e path => s!"[Errno {e.code}] {e.text}: {Display.path path}"
  | .notUtf8 m => m.message
  | .generate e => e.message

/-- Whether the error ends the command without a status. -/
def isFatal : RunError → Bool
  | .nulInPath => true
  | .generate (.notJson _) => true
  | _ => false

end RunError

def outputPath (path : String) : String := path ++ "_test.txt"

/-- The text of a file, with its line ends made one. -/
def fileText (bytes : List UInt8) : Except RunError String :=
  match Utf8.decode bytes with
  | .error m => .error (.notUtf8 m)
  | .ok text => .ok (.ofList (Newline.unify text))

/-- The bytes to write for the bytes that were read. -/
def outputBytes (bytes : List UInt8) : Traced RunError (List UInt8) := do
  let text ← .ofExcept (fileText bytes)
  let code ← (generateFrom (.text text) defaultRoot).mapError .generate
  return Utf8.encode code.toList

/-- Reads a file and writes its assertions, and gives the path of these. The file beside it is
opened only when all that goes into it is known. -/
def generateFile {m : Type → Type} [Monad m] (storage : Storage m) (path : String) :
    m (Traced RunError String) := do
  if path.toList.contains '\x00' then return ⟨[], .error .nulInPath⟩
  else
    match ← storage.read path with
    | .error e => return ⟨[], .error (.file e path)⟩
    | .ok bytes =>
      let result := outputBytes bytes
      match result.outcome with
      | .error e => return ⟨result.log, .error e⟩
      | .ok code =>
        match ← storage.write (outputPath path) code with
        | .error e => return ⟨result.log, .error (.file e (outputPath path))⟩
        | .ok () => return ⟨result.log, .ok (outputPath path)⟩

inductive Status where
  | exited (code : Nat)
  | raised (e : RunError)
  deriving DecidableEq, Repr

/-- What a run leaves behind besides files: how it ended, the texts for the two streams, and the
level of the log from then on. -/
structure Outcome where
  status : Status
  out : String
  err : String
  level : Option Level
  deriving DecidableEq, Repr

/-- The outcome of a run that got past its arguments. -/
def Outcome.ofGeneration (level : Level) (result : Traced RunError String) : Outcome :=
  let log := String.join ((level.visible result.log).map (·.line ++ "\n"))
  match result.outcome with
  | .ok path => ⟨.exited 0, path ++ "\n", log, some level⟩
  | .error e =>
    if e.isFatal then ⟨.raised e, "", log, some level⟩
    else ⟨.exited 1, "", log ++ "Error: " ++ e.message ++ "\n", some level⟩

/-- A run of the command. The level of the log is set once, by the first run that has a file to
generate; before that there is none. -/
def run {m : Type → Type} [Monad m] (storage : Storage m) (level : Option Level)
    (arguments : List String) : m Outcome := do
  match Request.ofList arguments with
  | .help => return ⟨.exited 0, usage ++ "\n", "", level⟩
  | .malformed => return ⟨.exited 2, "", usage ++ "\n", level⟩
  | .generate a =>
    let level := level.getD (if a.verbose then .debug else .warning)
    return .ofGeneration level (← generateFile storage a.path)

/-- Files of a tree. -/
def Storage.ofTree : Storage (StateM FileTree) where
  read path := do return (← get).read path
  write path bytes := do
    match (← get).write path bytes with
    | .error e => return .error e
    | .ok t => set t; return .ok ()

/-- A run on a file tree, with the tree that it leaves. -/
def runOn (t : FileTree) (level : Option Level) (arguments : List String) : Outcome × FileTree :=
  (run .ofTree level arguments).run t

/-! Runs in one process, one after the other. Each starts with the level of the log that the one
before it left; between them the files may change. -/

/-- A run to come: what is done to the files before it, and its arguments. -/
structure Call where
  prepare : FileTree → FileTree
  arguments : List String

/-- The outcomes of some calls, each with the files that it leaves. -/
def runAll (t : FileTree) (level : Option Level) : List Call → List (Outcome × FileTree)
  | [] => []
  | call :: calls =>
    let result := runOn (call.prepare t) level call.arguments
    result :: runAll result.2 result.1.level calls

end Command
end JsonAssert
