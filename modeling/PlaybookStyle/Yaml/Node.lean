/-
From events to the node graph of a document.

A node keeps what its value depends on: mark, tag, anchor and content. An alias
names an anchor by number. Where the events of a document break off, the open
collections end in `cut`, so that what came before can still be judged first.
-/

import PlaybookStyle.Yaml.Control
import PlaybookStyle.Yaml.Event

namespace PlaybookStyle.Yaml

inductive Node where
  | scalar (mark : Mark) (anchor? : Option Nat) (tag? : Option Tag) (text : String)
      (style : ScalarStyle)
  | sequence (mark : Mark) (anchor? : Option Nat) (tag? : Option Tag) (items : List Node)
  /-- Keys and values in turn. -/
  | mapping (mark : Mark) (anchor? : Option Nat) (tag? : Option Tag) (children : List Node)
  | alias (mark : Mark) (anchor : Nat)
  | cut
deriving Repr, Inhabited

namespace Node

mutual

/-- The anchored nodes at or below a node, in the order of the text. -/
def anchored : Node → List (Nat × Node)
  | scalar mark anchor? tag? text style =>
    (anchor?.map fun n => (n, scalar mark anchor? tag? text style)).toList
  | sequence mark anchor? tag? items =>
    (anchor?.map fun n => (n, sequence mark anchor? tag? items)).toList ++ anchoredItems items
  | mapping mark anchor? tag? children =>
    (anchor?.map fun n => (n, mapping mark anchor? tag? children)).toList ++ anchoredItems children
  | .alias _ _ => []
  | cut => []

def anchoredItems : List Node → List (Nat × Node)
  | [] => []
  | node :: rest => anchored node ++ anchoredItems rest

end

/-- A collection whose end was not read yet. -/
structure Open where
  isMapping : Bool
  mark : Mark
  anchor? : Option Nat
  tag? : Option Tag
  /-- What was read inside, last first. -/
  children : List Node

def Open.close (c : Open) : Node :=
  if c.isMapping then .mapping c.mark c.anchor? c.tag? c.children.reverse
  else .sequence c.mark c.anchor? c.tag? c.children.reverse

/-- A document while its events are read. -/
structure Building where
  opened : List Open
  root? : Option Node
  /-- The number of each anchor's name. -/
  anchors : List (String × Nat)
  /-- The number of nodes, aliases and collection ends so far. -/
  count : Nat

namespace Building

def empty : Building := ⟨[], none, [], 0⟩

/-- Adds a finished node to the innermost open collection. -/
def add (b : Building) (node : Node) : Building :=
  match b.opened with
  | [] => { b with root? := some node }
  | c :: outer => { b with opened := { c with children := node :: c.children } :: outer }

/-- Numbers an anchor: by the number of different names before it. A name that
is used again gets a new number and keeps counting as one name. -/
def number (b : Building) : Option String → Option Nat × Building
  | none => (none, b)
  | some name =>
    let n := b.anchors.length
    (some n, { b with
      anchors := if (b.anchors.lookup name).isSome
        then b.anchors.map fun a => if a.1 == name then (name, n) else a
        else b.anchors ++ [(name, n)] })

def start (b : Building) (isMapping : Bool) (properties : Properties) (mark : Mark) : Building :=
  let (anchor?, b) := b.number properties.anchor?
  { b with opened := ⟨isMapping, mark, anchor?, properties.tag?, []⟩ :: b.opened }

def finish (b : Building) : Building :=
  match b.opened with
  | [] => b
  | c :: outer => { b with opened := outer }.add c.close

/-- Ends all open collections in a cut. -/
def cutOff (b : Building) : Node :=
  match b.opened with
  | [] => b.root?.getD .cut
  | c :: outer =>
    outer.foldl (fun node o => { o with children := .cut :: node :: o.children }.close)
      { c with children := .cut :: c.children }.close

end Building

end Node

/-- A document: its nodes, the reason why they break off, and the events after it. -/
structure Document where
  /-- No node at all when the text holds none. -/
  root? : Option Node
  failure? : Option Error
  count : Nat
  after : List Event
deriving Repr

namespace Document

/-- Reads events up to the end of a document. -/
def load (failure? : Option Error) (b : Node.Building) : List Event → Document
  | [] => ⟨some b.cutOff, failure?, b.count, []⟩
  | ⟨happening, mark⟩ :: rest =>
    let counted : Node.Building := { b with count := b.count + 1 }
    match happening with
    | .streamEnd => ⟨none, none, 1, []⟩
    | .documentStart => load failure? b rest
    | .documentEnd => ⟨b.root?, none, b.count, rest⟩
    | .alias name =>
      match b.anchors.lookup name with
      | some n => load failure? (counted.add (.alias mark n)) rest
      | none => ⟨some b.cutOff, some (.unknownAnchor mark), b.count, []⟩
    | .scalar properties text style =>
      let (anchor?, b) := counted.number properties.anchor?
      load failure? (b.add (.scalar mark anchor? properties.tag? text style)) rest
    | .sequenceStart properties => load failure? (counted.start false properties mark) rest
    | .mappingStart properties => load failure? (counted.start true properties mark) rest
    | .sequenceEnd | .mappingEnd => load failure? counted.finish rest

/-- The first document of a text. A control character is the reason where the
portions before it give no other. -/
def ofText (text : String) : Document :=
  let chars := text.toList
  match Control.ofText? chars with
  | none =>
    let events := Event.read chars false
    load (events.failure?.map .syntaxError) .empty events.items
  | some control =>
    let events := Event.read (chars.take control.legible) true
    let failure := (events.failure?.map .syntaxError).getD (.controlCharacter control.offset)
    load (some failure) .empty events.items

end Document

end PlaybookStyle.Yaml
