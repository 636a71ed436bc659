import WorkflowScope.Yaml.Tag
import WorkflowScope.Yaml.Token

/-!
# Directives

A line that begins with `%`. Two directives are known, `YAML` and `TAG`; any other line declares an
empty handle, which no tag can use.
-/

namespace WorkflowScope.Yaml.Directive

def skipNumber (start : Mark) (c : Cursor) : Except SyntaxError Cursor :=
  let digits := (c.upcoming Char.isDigit).length
  if 9 < digits then .error ⟨.versionTooLong, start⟩
  else if digits = 0 then .error ⟨.versionNumber, start⟩
  else .ok (c.skip digits)

def skipBlanks (c : Cursor) : Cursor :=
  c.skipBlank (c.upcoming isBlank).length

def skipVersion (start : Mark) (c : Cursor) : Except SyntaxError Cursor := do
  let c ← skipNumber start (skipBlanks c)
  if c.peek != '.' then .error ⟨.versionPoint, start⟩ else skipNumber start (c.skip 1)

def skipPrefix (start : Mark) (c : Cursor) : Except SyntaxError Cursor := do
  let c ←
    if c.peek == '!' then .ok (c.skip 1)
    else if !isTagChar c.peek then .error ⟨.tagPrefixStart, start⟩
    else if c.peek == '%' then Tag.skipEscape start c
    else .ok (c.skip 1)
  let (c, _) ← Tag.skipAddress isUriChar start (c.rest.length + 1) c
  .ok c

def readDeclaration (start : Mark) (c : Cursor) : Except SyntaxError (Cursor × List Char) := do
  let (c, handle) ← Tag.readHandle start (skipBlanks c)
  if handle.getLast? != some '!' then .error ⟨.tagDirectiveBang, start⟩
  else
    let c ← skipPrefix start (skipBlanks c)
    if isBlankBreakOrEnd c.peek then .ok (c, handle) else .error ⟨.tagDirectiveFollow, start⟩

def readName (c : Cursor) : Except SyntaxError (Cursor × List Char) :=
  let name := c.upcoming isWordChar
  if name.isEmpty then c.fail .directiveName
  else
    let after := c.skip name.length
    if isBlankBreakOrEnd after.peek then .ok (after, name) else c.fail .directiveNameEnd

def read (c : Cursor) : Except SyntaxError (Cursor × Token) := do
  let start := c.mark
  let (c, name) ← readName (c.skip 1)
  let (c, token) ←
    if name = ['Y', 'A', 'M', 'L'] then do
      let c ← skipVersion start c
      .ok (c, Token.versionDirective)
    else if name = ['T', 'A', 'G'] then do
      let (c, handle) ← readDeclaration start c
      .ok (c, Token.tagDirective handle)
    else .ok (c.skipComment, Token.tagDirective [])
  let (c, _) ← c.skipToLineEnd
  if isBreakOrEnd c.peek then .ok ((c.lookAhead 2).skipBreak, token)
  else .error ⟨.directiveTrailing, start⟩

end WorkflowScope.Yaml.Directive
