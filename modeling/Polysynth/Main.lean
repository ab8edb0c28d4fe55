import Polysynth.CommandLine

namespace Polysynth

/-- The error with a number of the system. Some calls give the number negated. -/
private def systemError (code : UInt32) (details : String) : FileError :=
  let code := min code (0 - code)
  match code with
  | 2 => .notFound
  | 20 => .notFolder
  | 21 => .isFolder
  | 36 => .nameTooLong
  | _ => .other s!"{details} (os error {code})"

private def fileError : IO.Error → FileError
  | .noFileOrDirectory _ code details => systemError code details
  | .inappropriateType _ code details => systemError code details
  | .invalidArgument _ code details => systemError code details
  | .permissionDenied _ code details => systemError code details
  | .resourceExhausted _ code details => systemError code details
  | e => .other (toString e)

def machine : FileSystem IO where
  read path := do
    try return .ok (← IO.FS.readBinFile path)
    catch e => return .error (fileError e)
  write path chunks := do
    try
      let file ← IO.FS.Handle.mk path .write
      for chunk in chunks do
        file.write ⟨chunk⟩
      file.flush
      return .ok ()
    catch e => return .error (fileError e)

end Polysynth

def main (args : List String) : IO UInt32 := do
  let o ← Polysynth.CommandLine.runWith Polysynth.machine args
  (← IO.getStdout).putStr o.stdout
  (← IO.getStderr).putStr o.stderr
  return o.exit.toUInt32
