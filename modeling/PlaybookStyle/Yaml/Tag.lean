/-
Tags: what the author of a text says that a node is.

The octets of a tag are those written, escapes resolved, and end at a null
octet. `Tag.ofOctets` tells the standard tags for scalars and the local tags
from all others; a local tag whose octets are no text has no name.
-/

namespace PlaybookStyle.Yaml

abbrev Octets : Type := List UInt8

namespace Octets

/-- The octets of a text. -/
def ofText (text : String) : Octets := text.toUTF8.toList

/-- The text that octets spell, if they spell one. -/
def text? (octets : Octets) : Option String := String.fromUTF8? ⟨octets.toArray⟩

/-- The octet of the mark in front of a tag. -/
def mark : UInt8 := 33

/-- The octets in front of the first null octet. -/
def untilNull (octets : Octets) : Octets := octets.takeWhile (· != 0)

end Octets

inductive Tag where
  | boolean
  | integer
  | fraction
  | null
  /-- A local tag, by what stands behind its mark. -/
  | named (name : String)
  /-- A local tag whose octets are no text. -/
  | unreadable
  /-- Any other tag; a scalar under it is a text. -/
  | other
deriving DecidableEq, Repr, Inhabited

namespace Tag

/-- What the standard tags begin with. -/
def standard : Octets := .ofText "tag:yaml.org,2002:"

/-- The standard tag with a name. -/
def ofStandardName : String → Tag
  | "bool" => boolean
  | "int" => integer
  | "float" => fraction
  | "null" => null
  | _ => other

/-- The local tag behind a mark; a mark alone is a name itself. -/
def ofLocal (octets : Octets) : Tag :=
  let name := if octets.isEmpty then [Octets.mark] else octets
  match Octets.text? name with
  | some name => named name
  | none => unreadable

/-- The tag that octets write. -/
def ofOctets (octets : Octets) : Tag :=
  if octets.head? = some Octets.mark then ofLocal octets.tail
  else if standard.isPrefixOf octets then
    ((Octets.text? (octets.drop standard.length)).map ofStandardName).getD other
  else other

/-- The name of a local tag. -/
def name? : Tag → Option String
  | named name => some name
  | _ => none

/-- A name without the mark in front of it, unless it is the mark alone. -/
def bare (name : String) : String :=
  match name.toList with
  | '!' :: c :: rest => String.ofList (c :: rest)
  | _ => name

end Tag

end PlaybookStyle.Yaml
