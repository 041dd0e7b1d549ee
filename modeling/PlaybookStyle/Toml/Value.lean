/-
TOML values, as far as configurations tell them apart.

No value is left open. A choice is a string, or a table whose only member holds
an empty collection under the chosen word. A record may be a list of its fields,
and what is left over in the list is passed over.
-/

import PlaybookStyle.Configuration.Readable

namespace PlaybookStyle.Toml

inductive Value where
  | boolean (value : Bool)
  | number
  | moment
  | string (text : String)
  | list (items : List Value)
  | table (members : List (String × Value))
deriving Repr, Inhabited

namespace Value

def text? : Value → Option String
  | string text => some text
  | _ => none

def boolean? : Value → Option Bool
  | boolean value => some value
  | _ => none

def items? : Value → Option (List Value)
  | list items => some items
  | _ => none

/-- The members of a table. A moment counts as a table with one member, whose
key is no field's and whose value is of no use. -/
def members? : Value → Option (List (Option String × Value))
  | table members => some (members.map fun (key, value) => (some key, value))
  | moment => some [(some "", moment)]
  | _ => none

def isEmptyCollection : Value → Bool
  | list [] | table [] => true
  | _ => false

def word? : Value → Option String
  | string text => some text
  | table [(key, value)] => if value.isEmptyCollection then some key else none
  | _ => none

end Value

instance : Configuration.Readable Value where
  text? := Value.text?
  boolean? := Value.boolean?
  isOpen? _ := some false
  items? := Value.items?
  members? := Value.members?
  word? := Value.word?
  unnamed? _ := Value.items?

end PlaybookStyle.Toml
