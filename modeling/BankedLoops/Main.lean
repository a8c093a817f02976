import BankedLoops.CommandLine.Session

/-!
# The command line

Runs the compiler on the real files and streams.
-/

namespace BankedLoops

namespace CommandLine

def faultOf : IO.Error → FileFault
  | .noFileOrDirectory .. => .notFound
  | .permissionDenied .. => .permissionDenied
  | .inappropriateType _ 21 _ => .isDirectory
  | .inappropriateType .. => .notDirectory
  | .resourceBusy .. => .busy
  | e => .other (toString e)

def attempt {α : Type} (action : IO α) : IO (Except FileFault α) := do
  try
    return .ok (← action)
  catch e =>
    return .error (faultOf e)

def decode (bytes : ByteArray) : Except FileFault String :=
  match String.fromUTF8? bytes with
  | some text => .ok text
  | none => .error .invalidText

structure TempFile where
  path : String
  handle : IO.FS.Handle

/-- Makes a file in a directory that is not there yet, told from others by a number. -/
def createTemp (directory : String) : IO (Except FileFault TempFile) := do
  let path := s!"{directory}/.tmp{← IO.monoNanosNow}"
  match ← attempt (IO.FS.Handle.mk path .writeNew) with
  | .error fault => return .error (.beside path fault)
  | .ok handle => return .ok ⟨path, handle⟩

def realHost : Host TempFile IO where
  readFile path := do
    return (← attempt (IO.FS.readBinFile path)).bind decode
  readInput := do
    return (← attempt do (← IO.getStdin).readBinToEnd).bind decode
  createIn := createTemp
  write temp contents := attempt do
    temp.handle.putStr contents
    temp.handle.flush
  persist temp path := attempt (IO.FS.rename temp.path path)
  discard temp := do
    let _ ← attempt (IO.FS.removeFile temp.path)

end CommandLine

end BankedLoops

def main (args : List String) : IO UInt32 := do
  let report ← BankedLoops.CommandLine.run BankedLoops.CommandLine.realHost args
  (← IO.getStderr).putStr report.err
  (← IO.getStdout).putStr report.out
  return report.code.toUInt32
