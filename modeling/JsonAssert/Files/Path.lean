import JsonAssert.Files.Tree

/-! Paths, and what reading and writing at a path comes to. A path starts from the root or from the
working directory, and every name of it starts from a directory that is there. -/
namespace JsonAssert

inductive FileError where
  | notFound | notDirectory | isDirectory | nameTooLong
  | other (code : Nat) (text : String)
  deriving DecidableEq, Repr

namespace FileError

def code : FileError → Nat
  | .notFound => 2
  | .notDirectory => 20
  | .isDirectory => 21
  | .nameTooLong => 36
  | .other code _ => code

def text : FileError → String
  | .notFound => "No such file or directory"
  | .notDirectory => "Not a directory"
  | .isDirectory => "Is a directory"
  | .nameTooLong => "File name too long"
  | .other _ text => text

end FileError

namespace FileTree

/-- The parts between the slashes. -/
def components : List Char → List (List Char)
  | [] => [[]]
  | '/' :: path => [] :: components path
  | c :: path =>
    match components path with
    | [] => [[c]]
    | name :: names => (c :: name) :: names

/-- The longest name, and one more than the longest path, in bytes. -/
def maxName : Nat := 255

def maxPath : Nat := 4096

/-- The names of the directory that a path starts from. -/
def start (t : FileTree) (path : String) : List String :=
  if path.toList.head? = some '/' then [] else t.workingDirectory

/-- Where one more name leads from some names, whether or not there is an entry. Above the root
there is the root itself. -/
def follow (t : FileTree) (names : List String) (name : String) : Except FileError (List String) :=
  match t.get? names with
  | none => .error .notFound
  | some (.file _) => .error .notDirectory
  | some .directory =>
    if name = "" ∨ name = "." then .ok names
    else if name = ".." then .ok names.dropLast
    else if maxName < name.utf8ByteSize then .error .nameTooLong
    else .ok (names ++ [name])

/-- The names that a path leads to. -/
def locate (t : FileTree) (path : String) : Except FileError (List String) :=
  if path = "" then .error .notFound
  else if maxPath ≤ path.utf8ByteSize then .error .nameTooLong
  else ((components path.toList).map String.ofList).foldlM t.follow (t.start path)

def read (t : FileTree) (path : String) : Except FileError (List UInt8) :=
  match t.locate path with
  | .error e => .error e
  | .ok names =>
    match t.get? names with
    | none => .error .notFound
    | some .directory => .error .isDirectory
    | some (.file bytes) => .ok bytes

/-- Writes a file, a new one or in the place of an old one. -/
def write (t : FileTree) (path : String) (bytes : List UInt8) : Except FileError FileTree :=
  match t.locate path with
  | .error e => .error e
  | .ok names =>
    match t.get? names with
    | some .directory => .error .isDirectory
    | _ => .ok (t.put names (.file bytes))

end FileTree
end JsonAssert
