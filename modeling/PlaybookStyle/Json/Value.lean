/-
JSON values, as far as configurations tell them apart.

Every word is quoted or has a type of its own. A choice is a string, or a table
whose only member holds null under the chosen word. A record may be a list of
its fields that is not longer than they are.
-/

import PlaybookStyle.Configuration.Readable

namespace PlaybookStyle.Json

inductive Value where
  | null
  | boolean (value : Bool)
  | number
  /-- A string; without a text if its escapes name half of a surrogate pair. -/
  | string (text? : Option String)
  | list (items : List Value)
  /-- Members in the order of the text; they may repeat. -/
  | table (members : List (Option String × Value))
deriving Repr, Inhabited

namespace Value

def text? : Value → Option String
  | string text? => text?
  | _ => none

def boolean? : Value → Option Bool
  | boolean value => some value
  | _ => none

def isNull : Value → Bool
  | null => true
  | _ => false

def items? : Value → Option (List Value)
  | list items => some items
  | _ => none

def members? : Value → Option (List (Option String × Value))
  | table members => some members
  | _ => none

def word? : Value → Option String
  | string text? => text?
  | table [(key?, null)] => key?
  | _ => none

end Value

instance : Configuration.Readable Value where
  text? := Value.text?
  boolean? := Value.boolean?
  isOpen? value := some value.isNull
  items? := Value.items?
  members? := Value.members?
  word? := Value.word?
  unnamed? count value := value.items?.filter (·.length ≤ count)

end PlaybookStyle.Json
