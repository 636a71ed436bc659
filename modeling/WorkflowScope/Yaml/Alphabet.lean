/-!
# Character classes of YAML

The classes by which a YAML text is cut into tokens. The character NUL stands for the end of the
text, so reading past the end and reading a NUL are the same thing.
-/

namespace WorkflowScope.Yaml

def isEnd (c : Char) : Bool :=
  c == '\x00'

def isBreak (c : Char) : Bool :=
  c == '\n' || c == '\r'

def isBlank (c : Char) : Bool :=
  c == ' ' || c == '\t'

def isBreakOrEnd (c : Char) : Bool :=
  isBreak c || isEnd c

def isBlankBreakOrEnd (c : Char) : Bool :=
  isBlank c || isBreakOrEnd c

def isFlow (c : Char) : Bool :=
  c == ',' || c == '[' || c == ']' || c == '\x7b' || c == '\x7d'

/-- The characters of directive names and tag handles. -/
def isWordChar (c : Char) : Bool :=
  c.isAlphanum || c == '_' || c == '-'

def isAnchorChar (c : Char) : Bool :=
  !(isBlankBreakOrEnd c || isFlow c || c == '\ufeff')

def isUriChar (c : Char) : Bool :=
  isWordChar c || "#;/?:@&=+$,.!~*'()[]%".toList.contains c

def isTagChar (c : Char) : Bool :=
  isUriChar c && !isFlow c && c != '!'

end WorkflowScope.Yaml
