/-
YAML values.

A value is what a text means once layout, style and anchors are gone: nothing, a
boolean, a number, a string, a sequence, a mapping, or any of these under a
local tag. `same` is equality of values as mapping keys, for which the order of
a mapping's entries does not count, nor a mark in front of a tag's name.
-/

import PlaybookStyle.Yaml.Scalar
import PlaybookStyle.Yaml.Tag

namespace PlaybookStyle.Yaml

inductive Value where
  | null
  | boolean (value : Bool)
  | number (value : Number)
  | string (value : String)
  | sequence (items : List Value)
  | mapping (entries : List (Value × Value))
  | tagged (tag : String) (value : Value)
deriving Repr, Inhabited

namespace Value

mutual

/-- Equality of values as mapping keys. -/
def same : Value → Value → Bool
  | null, null => true
  | boolean a, boolean b => a == b
  | number a, number b => a.same b
  | string a, string b => a == b
  | sequence a, sequence b => sameItems a b
  | mapping a, mapping b => a.length == b.length && entriesWithin a b
  | tagged s a, tagged t b => Tag.bare s == Tag.bare t && same a b
  | _, _ => false

def sameItems : List Value → List Value → Bool
  | [], [] => true
  | a :: as, b :: bs => same a b && sameItems as bs
  | _, _ => false

/-- Every entry of the first list is one of the second. -/
def entriesWithin : List (Value × Value) → List (Value × Value) → Bool
  | [], _ => true
  | entry :: rest, b => entryWithin entry b && entriesWithin rest b

def entryWithin : Value × Value → List (Value × Value) → Bool
  | (key, value), b => b.any fun other => same key other.1 && same value other.2

end

/-- The value behind any tags. -/
def untagged : Value → Value
  | tagged _ value => value.untagged
  | value => value

/-- The value is a mapping, under whatever tag. -/
def isMapping (value : Value) : Bool :=
  match value.untagged with
  | mapping _ => true
  | _ => false

/-- The value of a text key of a mapping, under whatever tag. -/
def get? (value : Value) (key : String) : Option Value :=
  match value.untagged with
  | mapping entries =>
    (entries.find? fun entry => entry.1.same (.string key)).map Prod.snd
  | _ => none

/-- The text of a string, under whatever tag. -/
def text? (value : Value) : Option String :=
  match value.untagged with
  | string text => some text
  | _ => none

end Value

end PlaybookStyle.Yaml
