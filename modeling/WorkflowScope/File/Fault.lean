import WorkflowScope.Text.Utf8

/-!
# Faults of files
-/

namespace WorkflowScope

inductive FileFault where
  /-- There is nothing under the path. -/
  | missing
  /-- The system forbids it. -/
  | denied
  /-- A directory is to be made where a file is. -/
  | occupied
  /-- The path leads through a file. -/
  | notDirectory
  /-- The path is one of a directory. -/
  | isDirectory
  /-- The path or one of its names is too long. -/
  | nameTooLong
  /-- There is a NUL in the path. -/
  | nameWithNul
  /-- The bytes are no text. -/
  | notText
  /-- Anything else, in the words of the system. -/
  | system (text : String)
  deriving DecidableEq, Repr, Inhabited

namespace FileFault

def message : FileFault → String
  | missing => "No such file or directory (os error 2)"
  | denied => "Permission denied (os error 13)"
  | occupied => "File exists (os error 17)"
  | notDirectory => "Not a directory (os error 20)"
  | isDirectory => "Is a directory (os error 21)"
  | nameTooLong => "File name too long (os error 36)"
  | nameWithNul => "file name contained an unexpected NUL byte"
  | notText => "stream did not contain valid UTF-8"
  | system text => text

end FileFault

abbrev Content := Except FileFault Bytes

def Content.text (content : Content) : Except FileFault String := do
  let bytes ← content
  (Utf8.decode bytes).mapError fun _ => .notText

end WorkflowScope
