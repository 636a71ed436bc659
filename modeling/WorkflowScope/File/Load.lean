import WorkflowScope.Editor.Document
import WorkflowScope.File.Tree

/-!
# Documents from files

A document that is loaded from a file or from the standard input has version one. It is not looked
at: a text that is no YAML document can be loaded.
-/

namespace WorkflowScope

inductive LoadError where
  | file (path : String) (fault : FileFault)
  | input (defect : Utf8.Defect)
  deriving DecidableEq, Repr, Inhabited

namespace LoadError

def message : LoadError → String
  | file path _ => "Failed to read " ++ path
  | input _ => "Invalid UTF-8 in stdin"

def cause : LoadError → String
  | file _ fault => fault.message
  | input defect => defect.message

end LoadError

def inputPath : String := "-"

def isInputPath (path : String) : Bool :=
  Path.same path inputPath

namespace Document

def ofFile (path : String) (content : Content) : Except LoadError Document :=
  match content.text with
  | .ok text => .ok { path, text }
  | .error fault => .error (.file path fault)

def ofInput (bytes : Bytes) : Except LoadError Document :=
  match Utf8.decode bytes with
  | .ok text => .ok { path := inputPath, text }
  | .error defect => .error (.input defect)

end Document

end WorkflowScope
