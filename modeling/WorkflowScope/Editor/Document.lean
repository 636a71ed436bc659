import WorkflowScope.Text.Word
import WorkflowScope.Tree.Snapshot

/-!
# Open documents

A document as an editor holds it: a path, a version that grows with every edit, and a text.
-/

namespace WorkflowScope

structure Document where
  path : String
  /-- A signed word of 32 bits. -/
  version : Int := 1
  text : String
  deriving DecidableEq, Repr, Inhabited

namespace Document

def setText (document : Document) (text : String) : Document :=
  { document with text, version := Word32.wrapSigned (document.version + 1) }

def index (document : Document) : LineIndex :=
  LineIndex.ofText document.text.toList

def offsetAt (document : Document) (position : Position) : Nat :=
  document.index.offsetAt position

def positionAt (document : Document) (offset : Nat) : Position :=
  document.index.positionAt offset

def snapshot (document : Document) : Except DocumentError Snapshot :=
  Snapshot.ofText document.text

end Document

end WorkflowScope
