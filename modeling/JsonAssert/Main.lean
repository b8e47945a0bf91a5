import JsonAssert.Command.Run

/-! The command itself. -/
namespace JsonAssert.Command

/-- The cause of a failed access to a file, by its number, whose sign may be turned. -/
def fileError (e : IO.Error) : FileError :=
  let known (code : UInt32) (text : String) : FileError :=
    match code.toInt32.toInt.natAbs with
    | 2 => .notFound
    | 20 => .notDirectory
    | 21 => .isDirectory
    | 36 => .nameTooLong
    | n => .other n text
  match e with
  | .noFileOrDirectory _ code text => known code text
  | .inappropriateType _ code text => known code text
  | .invalidArgument _ code text => known code text
  | .permissionDenied _ code text => known code text
  | e => .other 5 (toString e)

def Storage.ofWorld : Storage IO where
  read path := do
    try return .ok (← IO.FS.readBinFile path).toList
    catch e => return .error (fileError e)
  write path bytes := do
    try
      IO.FS.writeBinFile path ⟨bytes.toArray⟩
      return .ok ()
    catch e => return .error (fileError e)

end JsonAssert.Command

open JsonAssert Command in
def main (arguments : List String) : IO UInt32 := do
  let outcome ← run .ofWorld none arguments
  (← IO.getStderr).putStr outcome.err
  (← IO.getStdout).putStr outcome.out
  match outcome.status with
  | .exited code => return code.toUInt32
  | .raised e => throw (.userError e.message)
