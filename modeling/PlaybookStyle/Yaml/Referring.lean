/-
YAML nodes as what a configuration file says.

A node is looked at where it stands: a scalar by its text, style and tag, an
alias by the node it names. A place left empty is a collection without anything
in it. A choice is a scalar, or a local tag under which nothing stands. Nodes
that no setting asks for are never looked at.
-/

import PlaybookStyle.Configuration.Readable
import PlaybookStyle.Yaml.Read

namespace PlaybookStyle.Yaml

/-- A node with the anchored nodes of its document. -/
structure Referring where
  anchors : List (Nat × Node)
  node : Node

namespace Referring

/-- The node that an alias names, or the node itself. -/
def target (r : Referring) : Node :=
  match r.node with
  | .alias _ n => (((r.anchors.filter (·.1 == n)).getLast?).map Prod.snd).getD .cut
  | node => node

def text? (r : Referring) : Option String :=
  match r.target with
  | .scalar _ _ _ text _ => some text
  | _ => none

/-- A boolean without quotes, or under its tag in literal style. -/
def boolean? (r : Referring) : Option Bool :=
  match r.target with
  | .scalar _ _ tag? text style =>
    if style = .plain || (style = .literal && tag? = some .boolean) then Yaml.boolean? text
    else none
  | _ => none

/-- Plain text that is empty or a word for null. -/
def isVoid (text : String) (style : ScalarStyle) : Bool :=
  style = .plain && (text.isEmpty || isNull text)

/-- A plain scalar is open if it is void; under a tag it is a text, but under
the tag for null a word for null has to stand. -/
def isOpen? (r : Referring) : Option Bool :=
  match r.target with
  | .scalar _ _ none text style => some (isVoid text style)
  | .scalar _ _ (some .null) text .plain => if isNull text then some true else none
  | _ => some false

/-- Nothing at all stands in a place for a collection. -/
def isBlank : Node → Bool
  | .scalar _ _ _ text style => style = .plain && text.isEmpty
  | _ => false

def items? (r : Referring) : Option (List Referring) :=
  match r.target with
  | .sequence _ _ _ items => some (items.map (⟨r.anchors, ·⟩))
  | node => if isBlank node then some [] else none

/-- The keys and values of a mapping, in pairs. -/
def pairs : List Node → List (Node × Node)
  | key :: value :: rest => (key, value) :: pairs rest
  | _ => []

def members? (r : Referring) : Option (List (Option String × Referring)) :=
  match r.target with
  | .mapping _ _ _ children =>
    some ((pairs children).map fun (key, value) =>
      (Referring.text? ⟨r.anchors, key⟩, ⟨r.anchors, value⟩))
  | node => if isBlank node then some [] else none

def word? (r : Referring) : Option String :=
  match r.target with
  | .scalar _ _ (some (.named name)) text style => if isVoid text style then some name else none
  | .scalar _ _ _ text _ => some text
  | _ => none

instance : Configuration.Readable Referring where
  text? := text?
  boolean? := boolean?
  isOpen? := isOpen?
  items? := items?
  members? := members?
  word? := word?
  unnamed? _ _ := none

/-- The root node of a text that is one document; a text without any is an empty
plain scalar. -/
def read? (text : String) : Option Referring :=
  let document := Document.ofText text
  match document.failure?, document.root?, document.after with
  | none, none, _ => some ⟨[], .scalar .start none none "" .plain⟩
  | none, some root, [⟨.streamEnd, _⟩] => some ⟨root.anchored, root⟩
  | _, _, _ => none

end Referring

end PlaybookStyle.Yaml
