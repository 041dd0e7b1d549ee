/-
Reading a text as one YAML value.

`Value.read` reads the events up to a character that no text may hold, builds
the nodes of the first document, gives them values, and refuses a second
document. Values are computed from the root down: collections nest at most 128
deep, aliases are followed a bounded number of times, and a mapping has no key
twice. The first reason in the order of the text is the one reported.
-/

import PlaybookStyle.Source.Position
import PlaybookStyle.Text.Quoted
import PlaybookStyle.Yaml.Node
import PlaybookStyle.Yaml.Value

namespace PlaybookStyle.Yaml

/-- Collections nest at most this deep. -/
def maximalDepth : Nat := 128

/-- The way from the root to a node, for messages. -/
structure Path where
  text : String
  isRoot : Bool
deriving DecidableEq, Repr

namespace Path

def root : Path := ⟨".", true⟩

def item (p : Path) (index : Nat) : Path := ⟨s!"{p.text}[{index}]", false⟩

private def inside (p : Path) : String := if p.isRoot then "" else p.text ++ "."

def key (p : Path) (name : String) : Path := ⟨p.inside ++ name, false⟩

/-- The value of a key that is no scalar. -/
def unnamed (p : Path) : Path := ⟨p.inside ++ "?", false⟩

end Path

/-- What giving values depends on. -/
structure Surroundings where
  anchors : List (Nat × Node)
  /-- Aliases are followed at most this often. -/
  limit : Nat
  failure? : Option Error

/-- The last node that has an anchor's number. -/
def Surroundings.target? (s : Surroundings) (n : Nat) : Option Node :=
  ((s.anchors.filter (·.1 == n)).getLast?).map Prod.snd

/-- A computation that counts the aliases it follows. -/
abbrev Composing := StateT Nat (Except Error)

namespace Value

def refuse {α : Type} (path : Path) (mark : Mark) (reason : String) : Composing α :=
  throw (.refused path.text reason mark)

/-- An integer that fits no width that values have. -/
def oversizedMessage (n : Int) : String :=
  let width := if n < 0 then "i128" else "u128"
  s!"invalid type: integer \x60{n}\x60 as {width}, expected any YAML value"

/-- What an explicit tag requires of a scalar's text. -/
def ofTagged (path : Path) (mark : Mark) (tag : Tag) (text : String) : Composing Value :=
  let wrong {α : Type} (expected : String) : Composing α :=
    refuse path mark s!"invalid value: string {Text.quoted text}, expected {expected}"
  match tag with
  | .boolean =>
    match boolean? text with
    | some b => pure (.boolean b)
    | none => wrong "a boolean"
  | .integer =>
    match (integer? text.toList).bind classifyInteger with
    | some (.number n) => pure (.number n)
    | some (.oversized n) => refuse path mark (oversizedMessage n)
    | _ => wrong "an integer"
  | .fraction =>
    match fraction? text.toList with
    | some n => pure (.number n)
    | none => wrong "a float"
  | .null => if isNull text then pure .null else wrong "null"
  | _ => pure (.string text)

/-- What an untagged scalar stands for. -/
def ofUntagged (path : Path) (mark : Mark) (text : String) (style : ScalarStyle) :
    Composing Value :=
  if style = .plain then
    match Plain.ofText text with
    | .null => pure .null
    | .boolean b => pure (.boolean b)
    | .number n => pure (.number n)
    | .oversized n =>
      refuse path mark (oversizedMessage n)
    | .string => pure (.string text)
  else pure (.string text)

/-- Puts a value under its local tag, if it has one. -/
def underTag (tag? : Option Tag) (value : Value) : Value :=
  match tag?.bind Tag.name? with
  | some name => .tagged name value
  | none => value

/-- The values of a sequence's items, numbered from `index`. -/
def ofItems (inside : Path → Node → Composing Value) (path : Path) (index : Nat) :
    List Node → Composing (List Value)
  | [] => pure []
  | node :: rest => do
    let value ← inside (path.item index) node
    let values ← ofItems inside path (index + 1) rest
    return value :: values

/-- How a message names a key that occurs twice. -/
def duplicateReason : Value → String
  | .null => "duplicate entry with null key"
  | .boolean b => s!"duplicate entry with key \x60{b}\x60"
  | .number n => s!"duplicate entry with key {n.text}"
  | .string s => s!"duplicate entry with key {Text.quoted s}"
  | _ => "duplicate entry in YAML map"

/-- The entries of a mapping from its keys and values in turn. -/
def ofChildren (inside : Path → Node → Composing Value) (path : Path) (mark : Mark)
    (entries : List (Value × Value)) : List Node → Composing (List (Value × Value))
  | [] => pure entries
  | [node] => do
    let key ← inside path node
    return entries ++ [(key, .null)]
  | keyNode :: node :: rest => do
    let key ← inside path keyNode
    match entries.find? (·.1.same key) with
    | some (known, _) => refuse path mark (duplicateReason known)
    | none =>
      let valuePath := match keyNode with
        | .scalar _ _ _ text _ => path.key text
        | _ => path.unnamed
      let value ← inside valuePath node
      ofChildren inside path mark (entries ++ [(key, value)]) rest

/-- The value of a node that is no alias, from the values of the nodes inside
it; there are none inside at the greatest depth. -/
def ofBody (s : Surroundings) (inside? : Option (Path → Node → Composing Value)) (path : Path) :
    Node → Composing Value
  | .scalar mark _ tag? text style =>
    match tag? with
    | none | some .unreadable => ofUntagged path mark text style
    | some (.named name) => return .tagged name (← ofUntagged path mark text style)
    | some tag => ofTagged path mark tag text
  | .sequence mark _ tag? items =>
    match inside? with
    | none => throw (.nestedTooDeep mark)
    | some inside => return underTag tag? (.sequence (← ofItems inside path 0 items))
  | .mapping mark _ tag? children =>
    match inside? with
    | none => throw (.nestedTooDeep mark)
    | some inside => return underTag tag? (.mapping (← ofChildren inside path mark [] children))
  | .alias _ _ => throw .repeatedTooOften
  | .cut => throw (s.failure?.getD .moreThanOneDocument)

/-- The value of a node; an alias stands for the node it names. -/
def ofNode (s : Surroundings) (inside? : Option (Path → Node → Composing Value)) (path : Path)
    (node : Node) : Composing Value :=
  match node with
  | .alias _ n => do
    modify (· + 1)
    if (← get) > s.limit then throw .repeatedTooOften
    else
      match s.target? n with
      | some target => ofBody s inside? path target
      | none => throw .repeatedTooOften
  | node => ofBody s inside? path node

/-- The value of a node, with collections at most `depth` deep. -/
def compose (s : Surroundings) : Nat → Path → Node → Composing Value
  | 0, path, node => ofNode s none path node
  | depth + 1, path, node => ofNode s (some (compose s depth)) path node

/-- The value of a document. -/
def ofDocument (document : Document) : Except Error Value :=
  match document.root? with
  | none => .ok .null
  | some root =>
    let surroundings : Surroundings :=
      ⟨root.anchored, document.count * 100, document.failure?⟩
    (compose surroundings maximalDepth .root root).run' 0

/-- The value of a text that is one YAML document. -/
def read (text : String) : Except Error Value := do
  let document := Document.ofText text
  let value ← ofDocument document
  match document.failure? with
  | some e => throw e
  | none =>
    match document.root?, document.after with
    | none, _ => return value
    | some _, [⟨.streamEnd, _⟩] => return value
    | some _, _ => throw .moreThanOneDocument

end Value

end PlaybookStyle.Yaml
