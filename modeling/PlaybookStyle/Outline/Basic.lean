/-
The outline of a source text: what stands where, and how it is written.

Values of a YAML text say nothing about layout. The outline keeps what the style
rules look at: the place of every key, dash and scalar, the quotes of a scalar,
the blanks around a colon and the last line of every part. It is read from the
layout alone, one logical line after the other.
-/

import PlaybookStyle.Source.Position

namespace PlaybookStyle

/-- How a scalar is written. -/
inductive QuoteStyle where
  | unquoted
  | double
  | single
  | folded
  | literal
  /-- A collection in brackets or braces, kept as text. -/
  | flow
deriving DecidableEq, Repr, Inhabited

namespace QuoteStyle

def name : QuoteStyle → String
  | unquoted => "unquoted"
  | double => "double"
  | single => "single"
  | folded => "folded-scalar"
  | literal => "literal-scalar"
  | flow => "flow"

/-- The scalar stands between quotes. -/
def isQuoted : QuoteStyle → Bool
  | double | single => true
  | _ => false

end QuoteStyle

/-- The blanks around the colon of a key, in bytes. -/
structure KeySpacing where
  beforeColon : Nat
  /-- The blanks before a value on the same line. -/
  afterColon : Option Nat
  /-- Some blank before such a value is not a space. -/
  tabAfterColon : Bool
deriving DecidableEq, Repr, Inhabited

namespace Outline

/-- A scalar as it stands in the source. -/
structure Scalar where
  /-- The token with its quotes, or the header of a block scalar. -/
  raw : String
  /-- The content. -/
  text : String
  style : QuoteStyle
  position : Position
  endLine : Nat
  /-- An explicit tag before the token. -/
  tag? : Option String
deriving DecidableEq, Repr, Inhabited

/-- A key of a block mapping with what stands under it. -/
structure Entry (α : Type) where
  key : String
  position : Position
  spacing : KeySpacing
  value : α
  endLine : Nat
deriving Repr, Inhabited

/-- An item of a block sequence; its position is the dash. -/
structure Item (α : Type) where
  position : Position
  value : α
  endLine : Nat
deriving Repr, Inhabited

inductive Node where
  | mapping (position : Position) (entries : List (Entry Node))
  | sequence (position : Position) (items : List (Item Node))
  | scalar (scalar : Scalar)
  | empty
deriving Repr, Inhabited

namespace Node

/-- The entries of a block mapping. -/
def entries? : Node → Option (List (Entry Node))
  | mapping _ entries => some entries
  | _ => none

def scalar? : Node → Option Scalar
  | scalar s => some s
  | _ => none

end Node

end Outline

/-- An inclusive range of lines. -/
structure LineRange where
  first : Nat
  last : Nat
deriving DecidableEq, Repr, Inhabited

def LineRange.contains (r : LineRange) (line : Nat) : Bool := r.first ≤ line && line ≤ r.last

/-- The outline of a text, with the lines whose indentation belongs to a scalar
that began on an earlier line. -/
structure Outline where
  root : Outline.Node
  verbatim : List LineRange
deriving Repr, Inhabited

end PlaybookStyle
