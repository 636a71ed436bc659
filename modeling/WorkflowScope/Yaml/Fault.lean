import WorkflowScope.Yaml.Mark

/-!
# Faults of YAML texts

Why a text is no YAML stream, and where that was noticed. The wording of every fault stands in
`Fault.message`.
-/

namespace WorkflowScope.Yaml

inductive Fault where
  | simpleKeyUnfinished
  | simpleKeyExpected
  | commentNotSeparated
  | tabIndentation
  | contentAfterDocumentEnd
  | badIndentation
  | tooDeep
  | entryInFlow
  | entryNotAllowed
  | anchorIndentation
  | tabAfterDash
  | keyNotAllowed
  | whitespaceExpected
  | tabAfterQuestionMark
  | tabAfterColon
  | colonMisplaced
  | valueNotAllowed
  | nameExpected
  | unexpectedCharacter (found : Char)
  | plainIndentation
  | plainDashInFlow
  | plainTab
  | quotedDocumentIndicator
  | quotedEndOfStream
  | quotedIndentation
  | quotedUnknownEscape
  | quotedHexadecimal
  | quotedCodePoint
  | quotedTab
  | quotedTrailing
  | blockIndicatorZero
  | blockHeader
  | blockTab
  | blockIndentation
  | verbatimTagEnd
  | tagSuffix
  | tagEscape
  | tagLeadingOctet
  | tagTrailingOctet
  | tagCodePoint
  | tagFollow
  | tagBang
  | tagDirectiveBang
  | tagPrefixStart
  | tagDirectiveFollow
  | directiveName
  | directiveNameEnd
  | versionTooLong
  | versionNumber
  | versionPoint
  | directiveTrailing
  | documentStartExpected
  | versionTwice
  | directiveAfterContent
  | unknownAnchor
  | undeclaredHandle
  | nodeExpected
  | blockKeyExpected
  | dashExpected
  | flowMappingSeparator
  | flowSequenceSeparator
  | streamCutShort
  deriving DecidableEq, Repr, Inhabited

namespace Fault

def message : Fault → String
  | simpleKeyUnfinished => "simple key expect ':'"
  | simpleKeyExpected => "simple key expected"
  | commentNotSeparated => "comments must be separated from other tokens by whitespace"
  | tabIndentation => "tabs disallowed within this context (block indentation)"
  | contentAfterDocumentEnd => "invalid content after document end marker"
  | badIndentation => "invalid indentation"
  | tooDeep => "recursion limit exceeded"
  | entryInFlow => "\"-\" is only valid inside a block"
  | entryNotAllowed => "block sequence entries are not allowed in this context"
  | anchorIndentation => "invalid indentation for anchor"
  | tabAfterDash => "'-' must be followed by a valid YAML whitespace"
  | keyNotAllowed => "mapping keys are not allowed in this context"
  | whitespaceExpected => "expected whitespace"
  | tabAfterQuestionMark => "tabs disallowed in this context"
  | tabAfterColon => "':' must be followed by a valid YAML whitespace"
  | colonMisplaced => "illegal placement of ':' indicator"
  | valueNotAllowed => "mapping values are not allowed in this context"
  | nameExpected =>
      "while scanning an anchor or alias, did not find expected alphabetic or numeric character"
  | unexpectedCharacter found => "unexpected character: `" ++ found.toString ++ "'"
  | plainIndentation => "invalid indentation in flow construct"
  | plainDashInFlow => "plain scalar cannot start with '-' followed by ,[]\x7b\x7d"
  | plainTab => "while scanning a plain scalar, found a tab"
  | quotedDocumentIndicator =>
      "while scanning a quoted scalar, found unexpected document indicator"
  | quotedEndOfStream => "while scanning a quoted scalar, found unexpected end of stream"
  | quotedIndentation => "invalid indentation in quoted scalar"
  | quotedUnknownEscape => "while parsing a quoted scalar, found unknown escape character"
  | quotedHexadecimal =>
      "while parsing a quoted scalar, did not find expected hexadecimal number"
  | quotedCodePoint =>
      "while parsing a quoted scalar, found invalid Unicode character escape code"
  | quotedTab => "tab cannot be used as indentation"
  | quotedTrailing => "invalid trailing content after double-quoted scalar"
  | blockIndicatorZero =>
      "while scanning a block scalar, found an indentation indicator equal to 0"
  | blockHeader =>
      "while scanning a block scalar, did not find expected comment or line break"
  | blockTab => "a block scalar content cannot start with a tab"
  | blockIndentation => "wrongly indented line in block scalar"
  | verbatimTagEnd => "while scanning a verbatim tag, did not find the expected '>'"
  | tagSuffix => "while parsing a tag, did not find expected tag URI"
  | tagEscape => "while parsing a tag, did not find URI escaped octet"
  | tagLeadingOctet => "while parsing a tag, found an incorrect leading UTF-8 octet"
  | tagTrailingOctet => "while parsing a tag, found an incorrect trailing UTF-8 octet"
  | tagCodePoint => "while parsing a tag, found an invalid UTF-8 codepoint"
  | tagFollow => "while scanning a tag, did not find expected whitespace or line break"
  | tagBang => "while scanning a tag, did not find expected '!'"
  | tagDirectiveBang => "while parsing a tag directive, did not find expected '!'"
  | tagPrefixStart => "invalid global tag character"
  | tagDirectiveFollow =>
      "while scanning TAG, did not find expected whitespace or line break"
  | directiveName => "while scanning a directive, could not find expected directive name"
  | directiveNameEnd =>
      "while scanning a directive, found unexpected non-alphabetical character"
  | versionTooLong => "while scanning a YAML directive, found extremely long version number"
  | versionNumber => "while scanning a YAML directive, did not find expected version number"
  | versionPoint =>
      "while scanning a YAML directive, did not find expected digit or '.' character"
  | directiveTrailing =>
      "while scanning a directive, did not find expected comment or line break"
  | documentStartExpected => "did not find expected <document start>"
  | versionTwice => "duplicate version directive"
  | directiveAfterContent => "missing explicit document end marker before directive"
  | unknownAnchor => "while parsing node, found unknown anchor"
  | undeclaredHandle => "the handle wasn't declared"
  | nodeExpected => "while parsing a node, did not find expected node content"
  | blockKeyExpected => "while parsing a block mapping, did not find expected key"
  | dashExpected => "while parsing a block collection, did not find expected '-' indicator"
  | flowMappingSeparator =>
      "while parsing a flow mapping, did not find expected ',' or '\x7d'"
  | flowSequenceSeparator => "while parsing a flow sequence, expected ',' or ']'"
  | streamCutShort => "unexpected eof"

end Fault

structure SyntaxError where
  fault : Fault
  mark : Mark
  deriving DecidableEq, Repr, Inhabited

end WorkflowScope.Yaml
