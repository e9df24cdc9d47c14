import JumpCode.Command.Report

/-!
# The command line

The outermost layer: the disk and the terminal.  What a command line asks for and what comes of it
is told by `Request.ofArgs` and `Request.report`.
-/

namespace JumpCode

/-- The words for a failed access to the disk. -/
def diskReason : IO.Error → String
  | .noFileOrDirectory _ _ _ => FileError.notFound.reason
  | .inappropriateType _ _ _ => FileError.notADirectory.reason
  | e => toString e

def readScript (path : String) : IO (Except Unreadable Script) := do
  try
    let content ← IO.FS.readBinFile path
    match String.fromUTF8? content with
    | some text => return .ok ⟨Path.fileName path, path, text⟩
    | none => return .error ⟨path, FileError.notText.reason⟩
  catch e => return .error ⟨path, diskReason e⟩

def writeOutput (r : Report) : IO Report := do
  match r.output with
  | none => return r
  | some (path, text) =>
    try
      IO.FS.writeFile path text
      return r
    catch e => return r.notWritten (diskReason e)

def answerRequest (request : Request) : IO UInt32 := do
  let script ← match request.file? with
    | some path => readScript path
    | none => pure (.error ⟨"", FileError.notFound.reason⟩)
  let report ← writeOutput (request.report fun _ => script)
  IO.print report.stdout
  IO.eprint report.stderr
  return report.exitCode.toUInt32

def runCommand (args : List String) : IO UInt32 := do
  match Request.ofArgs args with
  | .ok request => answerRequest request
  | .error e =>
    IO.eprint s!"error: {e.message}\n"
    return 2

end JumpCode

def main (args : List String) : IO UInt32 := JumpCode.runCommand args
