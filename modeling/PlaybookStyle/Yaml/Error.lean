/-
Why a text is not YAML.

A fault is a cause, never a text: `Problem` says what was met, `Situation` what
was being read, `SyntaxError` puts both at their marks. `Error` adds the causes
that arise after parsing. `Error.message` is the only place where wording is
chosen, and `Error.place?` the only place where a cause is given a line.
-/

import PlaybookStyle.Yaml.Mark

namespace PlaybookStyle.Yaml

/-- What was met instead of what had to come. -/
inductive Problem where
  | missingColon
  | blockEntryNotAllowed
  | keyNotAllowed
  | valueNotAllowed
  | cannotStartToken
  | unknownDirective
  | commentOrBreakExpected
  | directiveNameMissing
  | directiveNameNotAlphabetical
  | versionDotExpected
  | versionTooLong
  | versionMissing
  | blankExpected
  | blankOrBreakExpected
  | anchorNameExpected
  | tagBracketExpected
  | tagMarkExpected
  | tagExpected
  | octetExpected
  | wrongLeadingOctet
  | wrongTrailingOctet
  | zeroIndentIndicator
  | tabInBlockIndent
  | documentMarkInQuotes
  | endInQuotes
  | unknownEscape
  | hexDigitExpected
  | invalidCodePoint
  | colonInFlowScalar
  | tabInPlainIndent
  | documentStartExpected
  | undefinedTagHandle
  | contentExpected
  | dashExpected
  | keyExpected
  | sequenceSeparatorExpected
  | mappingSeparatorExpected
  | duplicateVersion
  | incompatibleVersion
  | duplicateTagDirective
deriving DecidableEq, Repr

def Problem.message : Problem → String
  | missingColon => "could not find expected ':'"
  | blockEntryNotAllowed => "block sequence entries are not allowed in this context"
  | keyNotAllowed => "mapping keys are not allowed in this context"
  | valueNotAllowed => "mapping values are not allowed in this context"
  | cannotStartToken => "found character that cannot start any token"
  | unknownDirective => "found unknown directive name"
  | commentOrBreakExpected => "did not find expected comment or line break"
  | directiveNameMissing => "could not find expected directive name"
  | directiveNameNotAlphabetical => "found unexpected non-alphabetical character"
  | versionDotExpected => "did not find expected digit or '.' character"
  | versionTooLong => "found extremely long version number"
  | versionMissing => "did not find expected version number"
  | blankExpected => "did not find expected whitespace"
  | blankOrBreakExpected => "did not find expected whitespace or line break"
  | anchorNameExpected => "did not find expected alphabetic or numeric character"
  | tagBracketExpected => "did not find the expected '>'"
  | tagMarkExpected => "did not find expected '!'"
  | tagExpected => "did not find expected tag URI"
  | octetExpected => "did not find URI escaped octet"
  | wrongLeadingOctet => "found an incorrect leading UTF-8 octet"
  | wrongTrailingOctet => "found an incorrect trailing UTF-8 octet"
  | zeroIndentIndicator => "found an indentation indicator equal to 0"
  | tabInBlockIndent => "found a tab character where an indentation space is expected"
  | documentMarkInQuotes => "found unexpected document indicator"
  | endInQuotes => "found unexpected end of stream"
  | unknownEscape => "found unknown escape character"
  | hexDigitExpected => "did not find expected hexadecimal number"
  | invalidCodePoint => "found invalid Unicode character escape code"
  | colonInFlowScalar => "found unexpected ':'"
  | tabInPlainIndent => "found a tab character that violates indentation"
  | documentStartExpected => "did not find expected <document start>"
  | undefinedTagHandle => "found undefined tag handle"
  | contentExpected => "did not find expected node content"
  | dashExpected => "did not find expected '-' indicator"
  | keyExpected => "did not find expected key"
  | sequenceSeparatorExpected => "did not find expected ',' or ']'"
  | mappingSeparatorExpected => "did not find expected ',' or '\x7d'"
  | duplicateVersion => "found duplicate %YAML directive"
  | incompatibleVersion => "found incompatible YAML document"
  | duplicateTagDirective => "found duplicate %TAG directive"

/-- What was being read when a problem was met. -/
inductive Situation where
  | scanningSimpleKey
  | scanningNextToken
  | scanningDirective
  | scanningVersionDirective
  | scanningTagDirective
  | scanningTagDirectiveHandle
  | parsingTagDirectiveHandle
  | parsingTagDirective
  | scanningAnchor
  | scanningAlias
  | scanningTag
  | parsingTag
  | scanningBlockScalar
  | scanningQuotedScalar
  | parsingQuotedScalar
  | scanningPlainScalar
  | parsingNode
  | parsingBlockNode
  | parsingFlowNode
  | parsingBlockCollection
  | parsingBlockMapping
  | parsingFlowSequence
  | parsingFlowMapping
deriving DecidableEq, Repr

def Situation.message : Situation → String
  | scanningSimpleKey => "while scanning a simple key"
  | scanningNextToken => "while scanning for the next token"
  | scanningDirective => "while scanning a directive"
  | scanningVersionDirective => "while scanning a %YAML directive"
  | scanningTagDirective => "while scanning a %TAG directive"
  | scanningTagDirectiveHandle => "while scanning a tag directive"
  | parsingTagDirectiveHandle => "while parsing a tag directive"
  | parsingTagDirective => "while parsing a %TAG directive"
  | scanningAnchor => "while scanning an anchor"
  | scanningAlias => "while scanning an alias"
  | scanningTag => "while scanning a tag"
  | parsingTag => "while parsing a tag"
  | scanningBlockScalar => "while scanning a block scalar"
  | scanningQuotedScalar => "while scanning a quoted scalar"
  | parsingQuotedScalar => "while parsing a quoted scalar"
  | scanningPlainScalar => "while scanning a plain scalar"
  | parsingNode => "while parsing a node"
  | parsingBlockNode => "while parsing a block node"
  | parsingFlowNode => "while parsing a flow node"
  | parsingBlockCollection => "while parsing a block collection"
  | parsingBlockMapping => "while parsing a block mapping"
  | parsingFlowSequence => "while parsing a flow sequence"
  | parsingFlowMapping => "while parsing a flow mapping"

/-- A problem at its mark, within the situation that started at another. -/
structure SyntaxError where
  problem : Problem
  mark : Mark
  situation? : Option (Situation × Mark)
deriving DecidableEq, Repr

/-- The message names a place unless it is the origin, and the situation's
place only where it differs from the problem's. -/
def SyntaxError.message (e : SyntaxError) : String :=
  let problem := e.problem.message ++ if e.mark.isOrigin then "" else s!" at {e.mark.describe}"
  match e.situation? with
  | none => problem
  | some (situation, since) =>
    problem ++ ", " ++ situation.message ++
      if since.isOrigin || since.samePlace e.mark then "" else s!" at {since.describe}"

/-- Why a text has no value. -/
inductive Error where
  /-- The character at a byte offset may not occur at all. -/
  | controlCharacter (offset : Nat)
  | syntaxError (e : SyntaxError)
  | unknownAnchor (mark : Mark)
  | nestedTooDeep (mark : Mark)
  | repeatedTooOften
  | moreThanOneDocument
  /-- A node whose value is refused, with the path of keys and indices to it. -/
  | refused (path : String) (reason : String) (mark : Mark)
deriving DecidableEq, Repr

namespace Error

/-- The mark of a cause; a control character has an offset and no line. -/
def mark? : Error → Option Mark
  | controlCharacter _ => some .start
  | syntaxError e => some e.mark
  | unknownAnchor mark => some mark
  | nestedTooDeep mark => some mark
  | repeatedTooOften => none
  | moreThanOneDocument => none
  | refused _ _ mark => some mark

private def located (text : String) (mark : Mark) : String :=
  if mark.isOrigin then text else s!"{text} at {mark.describe}"

def message : Error → String
  | controlCharacter offset =>
    "control characters are not allowed" ++ if offset = 0 then "" else s!" at position {offset}"
  | syntaxError e => e.message
  | unknownAnchor mark => located "unknown anchor" mark
  | nestedTooDeep mark => located "recursion limit exceeded" mark
  | repeatedTooOften => "repetition limit exceeded"
  | moreThanOneDocument =>
    "deserializing from YAML containing more than one document is not supported"
  | refused path reason mark =>
    located (if path == "." then reason else s!"{path}: {reason}") mark

/-- Line and column of a cause, both from one. -/
def place? (e : Error) : Option (Nat × Nat) :=
  e.mark?.map fun m => (m.line + 1, m.column + 1)

end Error

end PlaybookStyle.Yaml
