/-
How the values of configuration files are read, whatever the format.

Formats differ in how a value is written: which words are texts, how a choice
from a closed set looks, and whether a record may do without the names of its
fields. `Readable` is what a format has to answer about one value; the readers
below put the answers together. Only as much of a value is looked at as the
configuration asks for.
-/

namespace PlaybookStyle.Configuration

class Readable (α : Type) where
  text? : α → Option String
  boolean? : α → Option Bool
  /-- The value leaves its place open, or not; nothing if it does neither. -/
  isOpen? : α → Option Bool
  items? : α → Option (List α)
  /-- The members of a table with their keys; a key that is no text is `none`. -/
  members? : α → Option (List (Option String × α))
  /-- The word that a value chooses. -/
  word? : α → Option String
  /-- The values of a record of so many fields that are not named. -/
  unnamed? : Nat → α → Option (List α)

variable {α β : Type} [Readable α]

/-- A text. -/
def text? (value : α) : Option String := Readable.text? value

def boolean? (value : α) : Option Bool := Readable.boolean? value

/-- A value that may be left open. -/
def optional? (read : α → Option β) (value : α) : Option (Option β) :=
  match Readable.isOpen? value with
  | some true => some none
  | some false => (read value).map some
  | none => none

def list? (read : α → Option β) (value : α) : Option (List β) := do
  (← Readable.items? value).mapM read

/-- A table with any keys, in the order of the text. -/
def table? (read : α → Option β) (value : α) : Option (List (String × β)) := do
  (← Readable.members? value).mapM fun (key?, value) => do return (← key?, ← read value)

/-- One of a number of words. -/
def word? (ofName? : String → Option β) (value : α) : Option β :=
  (Readable.word? value).bind ofName?

/-- The values of a record's fields: from a table, in which no field is named
twice, or in the order of the fields. Other keys are passed over. -/
def fields? (names : List String) (value : α) : Option (List (String × α)) :=
  match Readable.members? value with
  | some members => do
    let keyed ← members.mapM fun (key?, value) => do return (← key?, value)
    let known := keyed.filter fun member => names.contains member.1
    if (known.map Prod.fst).Nodup then some known else none
  | none => (Readable.unnamed? names.length value).map names.zip

/-- The value of a field, or what it is when nothing is said. -/
def field (fields : List (String × α)) (name : String) (read : α → Option β)
    (default : β) : Option β :=
  match fields.lookup name with
  | some value => read value
  | none => some default

end PlaybookStyle.Configuration
