/-
From tokens to events: the grammar of a stream of documents.

An event opens or closes a document or a collection, or is a scalar or an alias.
The grammar is a machine with a stack: `Expecting` says what may come next, and
each step emits one event, reading at most a few tokens. Every collection
remembers where it started, for the message that names it.
-/

import PlaybookStyle.Yaml.Token.Scan

namespace PlaybookStyle.Yaml

/-- Anchor and tag of a node. -/
structure Properties where
  anchor? : Option String
  tag? : Option Tag
deriving DecidableEq, Repr

def Properties.none : Properties := ⟨Option.none, Option.none⟩

/-- What an event is. -/
inductive Happening where
  | streamEnd
  | documentStart
  | documentEnd
  | alias (name : String)
  | scalar (properties : Properties) (text : String) (style : ScalarStyle)
  | sequenceStart (properties : Properties)
  | sequenceEnd
  | mappingStart (properties : Properties)
  | mappingEnd
deriving DecidableEq, Repr

structure Event where
  happening : Happening
  mark : Mark
deriving DecidableEq, Repr

/-- What the grammar expects next. -/
inductive Expecting where
  | firstDocument
  | document
  | documentContent
  | documentEnd
  | blockNode
  | blockSequenceEntry (first : Bool)
  | indentlessEntry
  | blockMappingKey (first : Bool)
  | blockMappingValue
  | flowSequenceEntry (first : Bool)
  | flowPairKey
  | flowPairValue
  | flowPairEnd
  | flowMappingKey (first : Bool)
  | flowMappingValue
  | flowMappingNoValue
  | nothing
deriving DecidableEq, Repr

/-- The grammar between two events. -/
structure Grammar where
  tokens : List Token
  expecting : Expecting
  /-- What is expected once the current node ends. -/
  pending : List Expecting
  /-- Where the open collections started, innermost first. -/
  opened : List Mark
  /-- The tag handles of the document and what they stand for. -/
  handles : List (String × Octets)
deriving Repr

/-- An event with the grammar after it, the reason why there is none, or
`none` when the tokens end first. -/
abbrev Step := Option (Read (Event × Grammar))

namespace Grammar

def emit (g : Grammar) (happening : Happening) (mark : Mark) : Step :=
  some (.ok (⟨happening, mark⟩, g))

/-- A node with nothing in it. -/
def emitEmpty (g : Grammar) (mark : Mark) : Step :=
  g.emit (.scalar .none "" .plain) mark

/-- Goes on with what was expected after the current node. -/
def resume (g : Grammar) : Grammar :=
  match g.pending with
  | [] => { g with expecting := .nothing }
  | next :: rest => { g with expecting := next, pending := rest }

/-- Closes the innermost collection. -/
def close (g : Grammar) : Grammar := { g.resume with opened := g.opened.drop 1 }

/-- A problem within the innermost collection. -/
def collectionFault (g : Grammar) (problem : Problem) (mark : Mark) (situation : Situation) : Step :=
  some (fault problem mark situation (g.opened.head?.getD mark))

/-! ### Nodes -/

/-- Anchor and tag before a node, in either order, with the tag's handle and mark. -/
def properties : List Token →
    Option String × Option (String × Octets × Mark) × List Token
  | ⟨.anchor name, _⟩ :: ⟨.tag handle suffix, mark⟩ :: rest =>
    (some name, some (handle, suffix, mark), rest)
  | ⟨.tag handle suffix, mark⟩ :: ⟨.anchor name, _⟩ :: rest =>
    (some name, some (handle, suffix, mark), rest)
  | ⟨.anchor name, _⟩ :: rest => (some name, none, rest)
  | ⟨.tag handle suffix, mark⟩ :: rest => (none, some (handle, suffix, mark), rest)
  | rest => (none, none, rest)

/-- The tag that a handle and a suffix stand for. -/
def resolveTag (g : Grammar) (start : Mark) :
    Option (String × Octets × Mark) → Read (Option Tag)
  | none => .ok none
  | some (handle, suffix, mark) =>
    if handle.isEmpty then .ok (some (.ofOctets suffix))
    else
      match g.handles.lookup handle with
      | some expansion => .ok (some (.ofOctets (expansion ++ suffix)))
      | none => fault .undefinedTagHandle mark .parsingNode start

/-- A node. Block collections stand in block context only; `indentless` allows
a sequence at its key's own column. -/
def node (g : Grammar) (block indentless : Bool) : Step :=
  match g.tokens with
  | [] => none
  | ⟨.alias name, mark⟩ :: rest => { g.resume with tokens := rest }.emit (.alias name) mark
  | first :: _ =>
    let (anchor?, tag?, rest) := properties g.tokens
    match rest with
    | [] => none
    | token :: after =>
      match g.resolveTag first.mark tag? with
      | .error e => some (.error e)
      | .ok tag? =>
        let found : Properties := ⟨anchor?, tag?⟩
        let inside (next : Expecting) (happening : Happening) : Step :=
          { g with tokens := rest, expecting := next }.emit happening first.mark
        match token.lexeme with
        | .scalar text style =>
          { g.resume with tokens := after }.emit (.scalar found text style) first.mark
        | .flowSequenceStart => inside (.flowSequenceEntry true) (.sequenceStart found)
        | .flowMappingStart => inside (.flowMappingKey true) (.mappingStart found)
        | lexeme =>
          if indentless && lexeme == .blockEntry then
            inside .indentlessEntry (.sequenceStart found)
          else if block && lexeme == .blockSequenceStart then
            inside (.blockSequenceEntry true) (.sequenceStart found)
          else if block && lexeme == .blockMappingStart then
            inside (.blockMappingKey true) (.mappingStart found)
          else if anchor?.isSome || tag?.isSome then
            { g.resume with tokens := rest }.emit (.scalar found "" .plain) first.mark
          else
            some (fault .contentExpected token.mark
              (if block then .parsingBlockNode else .parsingFlowNode) first.mark)

/-- A node after which `next` is expected. -/
def nodeThen (g : Grammar) (next : Expecting) (block indentless : Bool) : Step :=
  node { g with pending := next :: g.pending } block indentless

/-- A node unless one of some lexemes stands in its place: then it is empty,
and `next` follows at once. -/
def nodeUnless (g : Grammar) (stops : List Lexeme) (next : Expecting) (mark : Mark)
    (block indentless : Bool) : Step :=
  match g.tokens with
  | [] => none
  | token :: _ =>
    if stops.contains token.lexeme then { g with expecting := next }.emitEmpty mark
    else g.nodeThen next block indentless

/-! ### Documents -/

def defaultHandles : List (String × Octets) := [("!", [Octets.mark]), ("!!", Tag.standard)]

/-- The directives before a document: their tag handles, and the tokens after
them. A text of another major version, a second version and a second meaning
for a handle are refused. -/
def directives (version : Bool) (handles : List (String × Octets)) :
    List Token → Read (List (String × Octets) × List Token)
  | ⟨.versionDirective major minor, mark⟩ :: rest =>
    if version then bareFault .duplicateVersion mark
    else if major != 1 || (minor != 1 && minor != 2) then bareFault .incompatibleVersion mark
    else directives true handles rest
  | ⟨.tagDirective handle expansion, mark⟩ :: rest =>
    if (handles.lookup handle).isSome then bareFault .duplicateTagDirective mark
    else directives version (handles ++ [(handle, expansion)]) rest
  | rest => .ok (handles ++ defaultHandles.filter fun d => (handles.lookup d.1).isNone, rest)

def isDocumentEnd (token : Token) : Bool := token.lexeme == .documentEnd

/-- A document that needs no mark, or one behind its directives and mark. -/
def documentStart (g : Grammar) (first : Bool) : Step :=
  let tokens := if first then g.tokens else g.tokens.dropWhile isDocumentEnd
  match tokens with
  | [] => none
  | token :: rest =>
    match token.lexeme with
    | .streamEnd => { g with tokens := rest, expecting := .nothing }.emit .streamEnd token.mark
    | lexeme =>
      let explicit := match lexeme with
        | .versionDirective _ _ | .tagDirective _ _ | .documentStart => true
        | _ => false
      if first && !explicit then
        { g with
          expecting := .blockNode
          pending := .documentEnd :: g.pending
          handles := defaultHandles }.emit .documentStart token.mark
      else
        match directives false [] tokens with
        | .error e => some (.error e)
        | .ok (handles, tokens) =>
          match tokens with
          | [] => none
          | ⟨.documentStart, _⟩ :: tokens =>
            { g with
              tokens := tokens
              expecting := .documentContent
              pending := .documentEnd :: g.pending
              handles := handles }.emit .documentStart token.mark
          | token :: _ => some (bareFault .documentStartExpected token.mark)

def documentContent (g : Grammar) : Step :=
  match g.tokens with
  | [] => none
  | token :: _ =>
    match token.lexeme with
    | .versionDirective _ _ | .tagDirective _ _ | .documentStart | .documentEnd | .streamEnd =>
      g.resume.emitEmpty token.mark
    | _ => g.node true false

def documentEnd (g : Grammar) : Step :=
  match g.tokens with
  | [] => none
  | token :: rest =>
    let tokens := if token.lexeme == .documentEnd then rest else g.tokens
    { g with tokens := tokens, expecting := .document, handles := [] }.emit .documentEnd token.mark

/-! ### Block collections -/

/-- Passes the token that opened a collection and remembers its mark. -/
def enter (g : Grammar) (first : Bool) : Grammar :=
  match first, g.tokens with
  | true, token :: rest => { g with tokens := rest, opened := token.mark :: g.opened }
  | _, _ => g

def blockSequenceEntry (g : Grammar) (first : Bool) : Step :=
  let g := g.enter first
  match g.tokens with
  | [] => none
  | token :: rest =>
    match token.lexeme with
    | .blockEntry =>
      nodeUnless { g with tokens := rest } [.blockEntry, .blockEnd] (.blockSequenceEntry false)
        token.mark true false
    | .blockEnd => { g.close with tokens := rest }.emit .sequenceEnd token.mark
    | _ => g.collectionFault .dashExpected token.mark .parsingBlockCollection

def indentlessEntry (g : Grammar) : Step :=
  match g.tokens with
  | [] => none
  | token :: rest =>
    match token.lexeme with
    | .blockEntry =>
      nodeUnless { g with tokens := rest } [.blockEntry, .key, .value, .blockEnd] .indentlessEntry
        token.mark true false
    | _ => g.resume.emit .sequenceEnd token.mark

def blockMappingKey (g : Grammar) (first : Bool) : Step :=
  let g := g.enter first
  match g.tokens with
  | [] => none
  | token :: rest =>
    match token.lexeme with
    | .key =>
      nodeUnless { g with tokens := rest } [.key, .value, .blockEnd] .blockMappingValue
        token.mark true true
    | .blockEnd => { g.close with tokens := rest }.emit .mappingEnd token.mark
    | _ => g.collectionFault .keyExpected token.mark .parsingBlockMapping

def blockMappingValue (g : Grammar) : Step :=
  match g.tokens with
  | [] => none
  | token :: rest =>
    match token.lexeme with
    | .value =>
      nodeUnless { g with tokens := rest } [.key, .value, .blockEnd] (.blockMappingKey false)
        token.mark true true
    | _ => { g with expecting := .blockMappingKey false }.emitEmpty token.mark

/-! ### Flow collections -/

/-- Passes the separator before every entry but the first. -/
def separator (g : Grammar) (first : Bool) (stop : Lexeme) (problem : Problem)
    (situation : Situation) (next : Grammar → Step) : Step :=
  match g.tokens with
  | [] => none
  | token :: rest =>
    if first || token.lexeme == stop then next g
    else if token.lexeme == .flowEntry then next { g with tokens := rest }
    else g.collectionFault problem token.mark situation

def flowSequenceEntry (g : Grammar) (first : Bool) : Step :=
  separator (g.enter first) first .flowSequenceEnd .sequenceSeparatorExpected .parsingFlowSequence
    fun g =>
      match g.tokens with
      | [] => none
      | token :: rest =>
        match token.lexeme with
        | .flowSequenceEnd => { g.close with tokens := rest }.emit .sequenceEnd token.mark
        | .key =>
          { g with tokens := rest, expecting := .flowPairKey }.emit (.mappingStart .none) token.mark
        | _ => g.nodeThen (.flowSequenceEntry false) false false

def flowPairKey (g : Grammar) : Step :=
  match g.tokens with
  | [] => none
  | token :: rest =>
    match token.lexeme with
    | .value | .flowEntry | .flowSequenceEnd =>
      { g with tokens := rest, expecting := .flowPairValue }.emitEmpty token.mark
    | _ => g.nodeThen .flowPairValue false false

def flowPairValue (g : Grammar) : Step :=
  match g.tokens with
  | [] => none
  | token :: rest =>
    match token.lexeme with
    | .value =>
      nodeUnless { g with tokens := rest } [.flowEntry, .flowSequenceEnd] .flowPairEnd
        token.mark false false
    | _ => { g with expecting := .flowPairEnd }.emitEmpty token.mark

def flowPairEnd (g : Grammar) : Step :=
  match g.tokens with
  | [] => none
  | token :: _ => { g with expecting := .flowSequenceEntry false }.emit .mappingEnd token.mark

def flowMappingKey (g : Grammar) (first : Bool) : Step :=
  separator (g.enter first) first .flowMappingEnd .mappingSeparatorExpected .parsingFlowMapping
    fun g =>
      match g.tokens with
      | [] => none
      | token :: rest =>
        match token.lexeme with
        | .flowMappingEnd => { g.close with tokens := rest }.emit .mappingEnd token.mark
        | .key =>
          nodeUnless { g with tokens := rest } [.value, .flowEntry, .flowMappingEnd]
            .flowMappingValue token.mark false false
        | _ => g.nodeThen .flowMappingNoValue false false

def flowMappingValue (g : Grammar) : Step :=
  match g.tokens with
  | [] => none
  | token :: rest =>
    match token.lexeme with
    | .value =>
      nodeUnless { g with tokens := rest } [.flowEntry, .flowMappingEnd] (.flowMappingKey false)
        token.mark false false
    | _ => { g with expecting := .flowMappingKey false }.emitEmpty token.mark

def flowMappingNoValue (g : Grammar) : Step :=
  match g.tokens with
  | [] => none
  | token :: _ => { g with expecting := .flowMappingKey false }.emitEmpty token.mark

/-- The next event. -/
def step (g : Grammar) : Step :=
  match g.expecting with
  | .firstDocument => g.documentStart true
  | .document => g.documentStart false
  | .documentContent => g.documentContent
  | .documentEnd => g.documentEnd
  | .blockNode => g.node true false
  | .blockSequenceEntry first => g.blockSequenceEntry first
  | .indentlessEntry => g.indentlessEntry
  | .blockMappingKey first => g.blockMappingKey first
  | .blockMappingValue => g.blockMappingValue
  | .flowSequenceEntry first => g.flowSequenceEntry first
  | .flowPairKey => g.flowPairKey
  | .flowPairValue => g.flowPairValue
  | .flowPairEnd => g.flowPairEnd
  | .flowMappingKey first => g.flowMappingKey first
  | .flowMappingValue => g.flowMappingValue
  | .flowMappingNoValue => g.flowMappingNoValue
  | .nothing => none

/-- All events up to a fault of the grammar or the end of the tokens. -/
def run : Nat → Grammar → List Event → List Event × Option SyntaxError
  | 0, _, read => (read.reverse, none)
  | n + 1, g, read =>
    match g.step with
    | none => (read.reverse, none)
    | some (.error e) => (read.reverse, some e)
    | some (.ok (event, g)) => run n g (event :: read)

end Grammar

/-- The events of a text. A fault of the grammar comes before one that the
scanner met behind it. Every token takes part in at most a few events. -/
def Event.read (text : List Char) (isCut : Bool) : Stream Event :=
  let tokens := Token.scan text isCut
  let (events, failure?) :=
    Grammar.run (8 * tokens.items.length + 8) ⟨tokens.items, .firstDocument, [], [], []⟩ []
  ⟨events, failure? <|> tokens.failure?⟩

end PlaybookStyle.Yaml
