/-
From a text to its tokens.

The scanner keeps two kinds of state apart from the reader: the columns of the
open block collections, innermost first, and one candidate for a simple key per
flow level, innermost first. That a scalar was a key is only known when its
colon comes; the tokens that open a mapping are then put in front of it. Tokens
therefore wait in a queue until no candidate stands at its head.
-/

import PlaybookStyle.Yaml.Token.Flow
import PlaybookStyle.Yaml.Token.Block
import PlaybookStyle.Yaml.Token.Name

namespace PlaybookStyle.Yaml

/-- A token that becomes a key if a colon follows on its line. -/
structure KeyCandidate where
  /-- The key stands at the indentation of its mapping, so a colon has to follow. -/
  required : Bool
  /-- The number of the token, counted from the first of the text. -/
  number : Nat
  mark : Mark
deriving DecidableEq, Repr

structure Scanner where
  reader : Reader
  /-- Tokens read and not yet delivered. -/
  queue : List Token
  /-- The number of tokens delivered. -/
  delivered : Nat
  /-- The columns of the open block collections, innermost first. -/
  columns : List Nat
  /-- The key candidate of each flow level, innermost first; block level last. -/
  candidates : List (Option KeyCandidate)
  /-- A key may start here. -/
  keyAllowed : Bool
  /-- The end of the text was delivered. -/
  ended : Bool
deriving Repr

namespace Scanner

def ofText (text : List Char) : Scanner :=
  ⟨.ofText text, [], 0, [], [none], true, false⟩

/-- Inside a flow collection. -/
def inFlow (s : Scanner) : Bool := s.candidates.length > 1

/-- The least column at which a line continues the innermost block collection. -/
def floor (s : Scanner) : Nat :=
  match s.columns with
  | [] => 0
  | column :: _ => column + 1

def mark (s : Scanner) : Mark := s.reader.mark

def enqueue (s : Scanner) (lexeme : Lexeme) (mark : Mark) : Scanner :=
  { s with queue := s.queue ++ [⟨lexeme, mark⟩] }

/-- Puts a token before the one with a number. -/
def insertBefore (s : Scanner) (number : Nat) (lexeme : Lexeme) (mark : Mark) : Scanner :=
  { s with queue := s.queue.insertIdx (number - s.delivered) ⟨lexeme, mark⟩ }

/-! ### Block collections -/

/-- Opens a block collection at a column deeper than all open ones. -/
def openBlock (s : Scanner) (column : Nat) (add : Scanner → Scanner) : Scanner :=
  if s.inFlow || column < s.floor then s
  else add { s with columns := column :: s.columns }

/-- Closes the block collections that stand deeper than a column. -/
def closeBlocks (s : Scanner) (column : Nat) : Scanner :=
  if s.inFlow then s
  else
    let closed := s.columns.takeWhile (column < ·)
    { s with
      columns := s.columns.dropWhile (column < ·)
      queue := s.queue ++ closed.map fun _ => ⟨.blockEnd, s.mark⟩ }

/-- Closes every block collection. -/
def closeAllBlocks (s : Scanner) : Scanner :=
  if s.inFlow then s
  else { s with columns := [], queue := s.queue ++ s.columns.map fun _ => ⟨.blockEnd, s.mark⟩ }

/-! ### Key candidates -/

/-- A candidate is out of reach on a later line or after 1024 characters. -/
def KeyCandidate.isStale (k : KeyCandidate) (here : Mark) : Bool :=
  k.mark.line < here.line || k.mark.index + 1024 < here.index

/-- Drops the candidates that are out of reach; a required one is an error. -/
def dropStale (s : Scanner) : Read Scanner := do
  -- The outermost level is looked at first.
  match s.candidates.reverse.find? (fun c => c.any fun k => KeyCandidate.isStale k s.mark && k.required) with
  | some (some k) => fault .missingColon s.mark .scanningSimpleKey k.mark
  | _ =>
    return { s with
      candidates := s.candidates.map fun c => c.filter fun k => !KeyCandidate.isStale k s.mark }

/-- Gives up the innermost candidate; a required one is an error. -/
def dropCandidate (s : Scanner) : Read Scanner :=
  match s.candidates with
  | some k :: outer =>
    if k.required then fault .missingColon s.mark .scanningSimpleKey k.mark
    else .ok { s with candidates := none :: outer }
  | _ => .ok s

/-- Notes that the next token may turn out to be a key. -/
def saveCandidate (s : Scanner) : Read Scanner := do
  if s.keyAllowed then
    let required := !s.inFlow && s.columns.head? == some s.mark.column
    let s' ← s.dropCandidate
    return { s' with
      candidates :=
        some ⟨required, s.delivered + s.queue.length, s.mark⟩ :: s'.candidates.drop 1 }
  else return s

/-! ### Reading one token -/

/-- A token of `n` characters. -/
def readMark (s : Scanner) (lexeme : Lexeme) (n : Nat) : Scanner :=
  { s.enqueue lexeme s.mark with reader := s.reader.skip n }

/-- Reads the end of the text, which ends its last line. -/
def readEnd (s : Scanner) : Read Scanner := do
  let r := s.reader
  let mark := if r.mark.column = 0 then r.mark else ⟨r.mark.index, r.mark.line + 1, 0⟩
  let s := closeAllBlocks { s with reader := ⟨r.rest, mark⟩ }
  let s ← s.dropCandidate
  return { s.enqueue .streamEnd s.mark with keyAllowed := false, ended := true }

def readDirective (s : Scanner) : Read Scanner := do
  let s ← s.closeAllBlocks.dropCandidate
  let (lexeme, after) ← directive s.reader
  return { s.enqueue lexeme s.mark with keyAllowed := false, reader := after }

def readDocumentMark (s : Scanner) (lexeme : Lexeme) : Read Scanner := do
  let s ← s.closeAllBlocks.dropCandidate
  return { s.readMark lexeme 3 with keyAllowed := false }

def readFlowStart (s : Scanner) (lexeme : Lexeme) : Read Scanner := do
  let s ← s.saveCandidate
  return { s.readMark lexeme 1 with candidates := none :: s.candidates, keyAllowed := true }

def readFlowEnd (s : Scanner) (lexeme : Lexeme) : Read Scanner := do
  let s ← s.dropCandidate
  let outer := if s.inFlow then s.candidates.drop 1 else s.candidates
  return { s.readMark lexeme 1 with candidates := outer, keyAllowed := false }

def readFlowEntry (s : Scanner) : Read Scanner := do
  let s ← s.dropCandidate
  return { s.readMark .flowEntry 1 with keyAllowed := true }

def readBlockEntry (s : Scanner) : Read Scanner := do
  if !s.inFlow && !s.keyAllowed then
    bareFault .blockEntryNotAllowed s.mark
  let s := s.openBlock s.mark.column fun t => t.enqueue .blockSequenceStart s.mark
  let s ← s.dropCandidate
  return { s.readMark .blockEntry 1 with keyAllowed := true }

def readKey (s : Scanner) : Read Scanner := do
  if !s.inFlow && !s.keyAllowed then
    bareFault .keyNotAllowed s.mark
  let s := s.openBlock s.mark.column fun t => t.enqueue .blockMappingStart s.mark
  let s ← s.dropCandidate
  return { s.readMark .key 1 with keyAllowed := !s.inFlow }

def readValue (s : Scanner) : Read Scanner := do
  match s.candidates with
  | some k :: outer =>
    let s := s.insertBefore k.number .key k.mark
    let s := s.openBlock k.mark.column fun t => t.insertBefore k.number .blockMappingStart k.mark
    return { s.readMark .value 1 with candidates := none :: outer, keyAllowed := false }
  | _ =>
    if !s.inFlow && !s.keyAllowed then
      bareFault .valueNotAllowed s.mark
    let s := s.openBlock s.mark.column fun t => t.enqueue .blockMappingStart s.mark
    return { s.readMark .value 1 with keyAllowed := !s.inFlow }

def readAnchor (s : Scanner) : Read Scanner := do
  let s ← s.saveCandidate
  let (name, after) ← anchorName .scanningAnchor s.reader
  return { s.enqueue (.anchor name) s.mark with keyAllowed := false, reader := after }

def readAlias (s : Scanner) : Read Scanner := do
  let s ← s.saveCandidate
  let (name, after) ← anchorName .scanningAlias s.reader
  return { s.enqueue (.alias name) s.mark with keyAllowed := false, reader := after }

def readTag (s : Scanner) : Read Scanner := do
  let s ← s.saveCandidate
  let (lexeme, after) ← tagLexeme s.inFlow s.reader
  return { s.enqueue lexeme s.mark with keyAllowed := false, reader := after }

def readBlockScalar (s : Scanner) (literal : Bool) : Read Scanner := do
  let s ← s.dropCandidate
  let (text, after) ← blockScalar literal s.floor s.reader
  let style := if literal then ScalarStyle.literal else .folded
  return { s.enqueue (.scalar (String.ofList text) style) s.mark with
    keyAllowed := true, reader := after }

def readQuoted (s : Scanner) (single : Bool) : Read Scanner := do
  let s ← s.saveCandidate
  let (text, after) ← quotedContent single s.mark (s.reader.skip 1) .empty []
  return { s.enqueue (.scalar (String.ofList text) .quoted) s.mark with
    keyAllowed := false, reader := after }

def readPlain (s : Scanner) : Read Scanner := do
  let s ← s.saveCandidate
  let scalar ← plainContent s.inFlow s.floor s.mark s.reader .empty []
  return { s.enqueue (.scalar (String.ofList scalar.text) .plain) s.mark with
    keyAllowed := scalar.broken, reader := scalar.after }

/-- A plain scalar may start with this text: no indicator stands here, or one
that a character follows with which it is none. -/
def startsPlain (inFlow : Bool) : List Char → Bool
  | [] => false
  | c :: rest =>
    !(isGap c || isBreak c || isFlowMark c ||
        c ∈ ['-', '?', ':', '#', '&', '*', '!', '|', '>', '\'', '"', '%', '@', '\x60']) ||
      (c == '-' && !rest.head?.any isGap) ||
      (!inFlow && (c == '?' || c == ':') && !blankOrEnd rest)

/-- Steps over a byte order mark at the start of a line, which takes up its first
column. -/
def skipOrderMark (r : Reader) : Reader :=
  if r.mark.column = 0 && r.rest.head? == some '\ufeff' then r.skip 1 else r

theorem length_rest_skipOrderMark_le (r : Reader) :
    (skipOrderMark r).rest.length ≤ r.rest.length := by
  unfold skipOrderMark
  split
  · simp [Reader.skip]
  · exact Nat.le_refl _

/-- Steps over blanks, comments and line breaks before the next token. A byte
order mark may open a line. In block style a key may start on a new line, and
tabs may not precede it. -/
def skipBlanks (inFlow : Bool) (r : Reader) (keyAllowed : Bool) : Reader × Bool :=
  let opened := skipOrderMark r
  let gaps := opened.skipWhile fun c => c == ' ' || ((inFlow || !keyAllowed) && c == '\t')
  let line := if gaps.rest.head? == some '#' then gaps.skipLineRest else gaps
  match _hb : line.break? with
  | some (_, next) => skipBlanks inFlow next (keyAllowed || !inFlow)
  | none => (line, keyAllowed)
termination_by r.rest.length
decreasing_by
  have hlt := Reader.length_rest_break?_lt _hb
  have hopened : opened.rest.length ≤ r.rest.length := length_rest_skipOrderMark_le r
  have hgaps : gaps.rest.length ≤ opened.rest.length :=
    Reader.length_rest_skipWhile_le _ opened
  have hline : line.rest.length ≤ gaps.rest.length := by
    simp only [line]
    split
    · exact Reader.length_rest_skipWhile_le _ gaps
    · exact Nat.le_refl _
  omega

/-- Moves to the next token. -/
def toNextToken (s : Scanner) : Scanner :=
  let (r, keyAllowed) := skipBlanks s.inFlow s.reader s.keyAllowed
  { s with reader := r, keyAllowed := keyAllowed }

/-- Reads the next token, and the ends of the block collections before it. -/
def readToken (s : Scanner) : Read Scanner := do
  let s ← s.toNextToken.dropStale
  let s := s.closeBlocks s.mark.column
  let text := s.reader.rest
  match text with
  | [] => s.readEnd
  | c :: rest =>
    if s.mark.column = 0 && c == '%' then s.readDirective
    else if s.mark.column = 0 && isDocumentMark text then
      s.readDocumentMark (if c == '-' then .documentStart else .documentEnd)
    else if c == '[' then s.readFlowStart .flowSequenceStart
    else if c == '\x7b' then s.readFlowStart .flowMappingStart
    else if c == ']' then s.readFlowEnd .flowSequenceEnd
    else if c == '\x7d' then s.readFlowEnd .flowMappingEnd
    else if c == ',' then s.readFlowEntry
    else if c == '-' && blankOrEnd rest then s.readBlockEntry
    else if c == '?' && (s.inFlow || blankOrEnd rest) then s.readKey
    else if c == ':' && (s.inFlow || blankOrEnd rest) then s.readValue
    else if c == '*' then s.readAlias
    else if c == '&' then s.readAnchor
    else if c == '!' then s.readTag
    else if c == '|' && !s.inFlow then s.readBlockScalar true
    else if c == '>' && !s.inFlow then s.readBlockScalar false
    else if c == '\'' then s.readQuoted true
    else if c == '"' then s.readQuoted false
    else if startsPlain s.inFlow text then s.readPlain
    else fault .cannotStartToken s.mark .scanningNextToken s.mark

/-- Takes the tokens from the head of the queue that no candidate holds back. -/
def deliver : Nat → Scanner → Read (List Token × Scanner)
  | 0, s => .ok ([], s)
  | n + 1, s =>
    match s.queue with
    | [] => .ok ([], s)
    | token :: rest => do
      let s ← s.dropStale
      if s.candidates.any (fun c => c.any (·.number == s.delivered)) then return ([], s)
      else
        let (tokens, s) ← deliver n { s with queue := rest, delivered := s.delivered + 1 }
        return (token :: tokens, s)

/-- The text ends within the few characters that reading looks ahead at a mark. -/
def endsNear (s : Scanner) (mark : Mark) : Bool :=
  (s.reader.rest.drop (mark.index - s.reader.mark.index + 3)).isEmpty

/-- Reads tokens until the end of the text is delivered. Of a text that is cut
off, what depends on its last characters is left out. -/
def run (isCut : Bool) : Nat → Scanner → List Token → Stream Token
  | 0, _, read => ⟨read.reverse, none⟩
  | n + 1, s, read =>
    if s.ended then ⟨read.reverse, none⟩
    else
      match s.readToken with
      | .error e => ⟨read.reverse, if isCut && s.endsNear e.mark then none else some e⟩
      | .ok s =>
        if isCut && s.endsNear s.mark then ⟨read.reverse, none⟩
        else
          match deliver s.queue.length s with
          | .error e => ⟨read.reverse, some e⟩
          | .ok (tokens, s) => run isCut n s (tokens.reverse ++ read)

end Scanner

/-- The tokens of a text. Every step but the last reads a character. -/
def Token.scan (text : List Char) (isCut : Bool) : Stream Token :=
  Scanner.run isCut (text.length + 1) (.ofText text) []

end PlaybookStyle.Yaml
