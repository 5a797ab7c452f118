import TestScript.Position

/-!
# Faults of a YAML text

A fault is the reason why a text is not a YAML stream, and the place where that shows.
-/

namespace TestScript.Yaml

/-- Why a text is not a YAML stream. -/
inductive Cause where
  -- comments, tabs and indentation
  | commentWithoutBlank
  | tabInIndentation
  | badIndentation
  | badAnchorIndentation
  -- keys and values
  | keyWithoutColon
  | keyExpected
  | keyNotAllowed
  | valueNotAllowed
  | tabAfterColon
  | misplacedColon
  | blankExpectedAfterKey
  | tabAfterKey
  -- block and flow collections
  | dashInFlow
  | entryNotAllowed
  | tabBetweenDashes
  | flowTooDeep
  -- documents and directives
  | contentAfterDocumentEnd
  | directiveName
  | directiveNameEnd
  | directiveRest
  | versionNumber
  | versionTooLong
  | versionDot
  | handleStart
  | handleEnd
  | expansionStart
  | expansionEnd
  -- anchors, aliases and tags
  | anchorName
  | tagEnd
  | tagUri
  | tagVerbatim
  | tagOctet
  | tagLeadingOctet
  | tagTrailingOctet
  | tagCodePoint
  -- scalars
  | unexpectedCharacter (c : Char)
  | plainInFlowIndentation
  | plainDash
  | plainTab
  | quotedDocumentIndicator
  | quotedUnfinished
  | quotedIndentation
  | quotedTab
  | quotedTrailing
  | escapeUnknown
  | escapeDigits
  | escapeCodePoint
  | blockScalarZero
  | blockScalarHeader
  | blockScalarTab
  | blockScalarIndentation
  -- the order of the tokens
  | documentStartExpected
  | directiveInDocument
  | secondVersion
  | tagHandle
  | blockKeyExpected
  | blockEntryExpected
  | flowMappingSeparator
  | flowSequenceSeparator
  | nodeExpected
  | unknownAnchor
  deriving DecidableEq, Repr

/-- The words in which a cause is reported. -/
def Cause.message : Cause → String
  | .commentWithoutBlank => "comments must be separated from other tokens by whitespace"
  | .tabInIndentation => "tabs disallowed within this context (block indentation)"
  | .badIndentation => "invalid indentation"
  | .badAnchorIndentation => "invalid indentation for anchor"
  | .keyWithoutColon => "simple key expect ':'"
  | .keyExpected => "simple key expected"
  | .keyNotAllowed => "mapping keys are not allowed in this context"
  | .valueNotAllowed => "mapping values are not allowed in this context"
  | .tabAfterColon => "':' must be followed by a valid YAML whitespace"
  | .misplacedColon => "illegal placement of ':' indicator"
  | .blankExpectedAfterKey => "expected whitespace"
  | .tabAfterKey => "tabs disallowed in this context"
  | .dashInFlow => "\"-\" is only valid inside a block"
  | .entryNotAllowed => "block sequence entries are not allowed in this context"
  | .tabBetweenDashes => "'-' must be followed by a valid YAML whitespace"
  | .flowTooDeep => "recursion limit exceeded"
  | .contentAfterDocumentEnd => "invalid content after document end marker"
  | .directiveName => "while scanning a directive, could not find expected directive name"
  | .directiveNameEnd => "while scanning a directive, found unexpected non-alphabetical character"
  | .directiveRest => "while scanning a directive, did not find expected comment or line break"
  | .versionNumber => "while scanning a YAML directive, did not find expected version number"
  | .versionTooLong => "while scanning a YAML directive, found extremely long version number"
  | .versionDot =>
    "while scanning a YAML directive, did not find expected digit or '.' character"
  | .handleStart => "while scanning a tag, did not find expected '!'"
  | .handleEnd => "while parsing a tag directive, did not find expected '!'"
  | .expansionStart => "invalid global tag character"
  | .expansionEnd => "while scanning TAG, did not find expected whitespace or line break"
  | .anchorName =>
    "while scanning an anchor or alias, did not find expected alphabetic or numeric character"
  | .tagEnd => "while scanning a tag, did not find expected whitespace or line break"
  | .tagUri => "while parsing a tag, did not find expected tag URI"
  | .tagVerbatim => "while scanning a verbatim tag, did not find the expected '>'"
  | .tagOctet => "while parsing a tag, did not find URI escaped octet"
  | .tagLeadingOctet => "while parsing a tag, found an incorrect leading UTF-8 octet"
  | .tagTrailingOctet => "while parsing a tag, found an incorrect trailing UTF-8 octet"
  | .tagCodePoint => "while parsing a tag, found an invalid UTF-8 codepoint"
  | .unexpectedCharacter c => .join ["unexpected character: `", .singleton c, "'"]
  | .plainInFlowIndentation => "invalid indentation in flow construct"
  | .plainDash => "plain scalar cannot start with '-' followed by ,[]\x7b\x7d"
  | .plainTab => "while scanning a plain scalar, found a tab"
  | .quotedDocumentIndicator =>
    "while scanning a quoted scalar, found unexpected document indicator"
  | .quotedUnfinished => "while scanning a quoted scalar, found unexpected end of stream"
  | .quotedIndentation => "invalid indentation in quoted scalar"
  | .quotedTab => "tab cannot be used as indentation"
  | .quotedTrailing => "invalid trailing content after double-quoted scalar"
  | .escapeUnknown => "while parsing a quoted scalar, found unknown escape character"
  | .escapeDigits =>
    "while parsing a quoted scalar, did not find expected hexadecimal number"
  | .escapeCodePoint =>
    "while parsing a quoted scalar, found invalid Unicode character escape code"
  | .blockScalarZero =>
    "while scanning a block scalar, found an indentation indicator equal to 0"
  | .blockScalarHeader =>
    "while scanning a block scalar, did not find expected comment or line break"
  | .blockScalarTab => "a block scalar content cannot start with a tab"
  | .blockScalarIndentation => "wrongly indented line in block scalar"
  | .documentStartExpected => "did not find expected <document start>"
  | .directiveInDocument => "missing explicit document end marker before directive"
  | .secondVersion => "duplicate version directive"
  | .tagHandle => "the handle wasn't declared"
  | .blockKeyExpected => "while parsing a block mapping, did not find expected key"
  | .blockEntryExpected =>
    "while parsing a block collection, did not find expected '-' indicator"
  | .flowMappingSeparator =>
    "while parsing a flow mapping, did not find expected ',' or '\x7d'"
  | .flowSequenceSeparator => "while parsing a flow sequence, expected ',' or ']'"
  | .nodeExpected => "while parsing a node, did not find expected node content"
  | .unknownAnchor => "while parsing node, found unknown anchor"

/-- Why a text is not a YAML stream, and where that shows. -/
structure Fault where
  cause : Cause
  position : Position
  deriving DecidableEq, Repr

end TestScript.Yaml
