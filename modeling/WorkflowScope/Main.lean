import WorkflowScope.CommandLine.Run

/-!
# The program

It reads files and the standard input, runs a command and writes what the command says.
-/

namespace WorkflowScope.CommandLine

/-- The fault behind an error of the system. A directory can be opened, but not read, and a file is
named in an error only as long as it is not open. -/
def faultOf : IO.Error → FileFault
  | .noFileOrDirectory _ _ _ => .missing
  | .permissionDenied _ _ _ => .denied
  | .alreadyExists _ _ _ => .occupied
  | .inappropriateType (some _) _ _ => .notDirectory
  | .inappropriateType none _ _ => .isDirectory
  | .invalidArgument _ _ "name too long" => .nameTooLong
  | error => .system (toString error)

def readFile (path : String) : IO Content := do
  try
    let bytes ← IO.FS.readBinFile path
    pure (.ok bytes.toList)
  catch error => pure (.error (faultOf error))

def readInput : IO Bytes := do
  let stdin ← IO.getStdin
  let mut bytes := ByteArray.empty
  repeat
    let chunk ← stdin.read 65536
    if chunk.isEmpty then break
    bytes := bytes ++ chunk
  pure bytes.toList

end WorkflowScope.CommandLine

def main (arguments : List String) : IO UInt32 := do
  let home ← IO.getEnv "HOME"
  let response ← WorkflowScope.CommandLine.run
    { home
      read := WorkflowScope.CommandLine.readFile
      input := WorkflowScope.CommandLine.readInput } arguments
  IO.print response.stdout
  IO.eprint response.stderr
  pure response.exit.toUInt32
