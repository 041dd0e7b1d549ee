/-
Exclusions as regular expressions, and how deep those may nest.

Most exclusions are compared as expressions, in which groups, alternatives,
rows, repetitions and sets stand in each other at most 250 deep. An exclusion
that is a text, but for its start or its end, needs no expression. One that ends
in a fixed extension has its expression compared by itself; all others are
compared together and known by their position among each other.
-/

import PlaybookStyle.Files.Exclusion

namespace PlaybookStyle.Files.Exclusion

/-! ### Expressions -/

/-- The characters with a meaning in expressions. -/
def isMeta (c : Char) : Bool := "\\.+*?()|[]\x7b\x7d^$#&-~".toList.contains c

/-- A byte as an expression: by its ASCII character, or by its two digits. -/
def byteExpression (byte : UInt8) : String :=
  let c := Char.ofNat byte.toNat
  if byte.toNat < 128 then (if isMeta c then "\\" ++ c.toString else c.toString)
  else "\\x" ++ String.ofList (Nat.toDigits 16 byte.toNat)

def charExpression (c : Char) : String := String.join ((bytesOf c).map byteExpression)

def rangeExpression (range : Char × Char) : String :=
  if range.1 = range.2 then charExpression range.1
  else charExpression range.1 ++ "-" ++ charExpression range.2

mutual

def Token.expression : Token → String
  | .literal c => charExpression c
  | .anyone => "."
  | .anything => ".*"
  | .leading => "(?:/?|.*/)"
  | .trailing => "/.*"
  | .between => "(?:/|/.*/)"
  | .among negated ranges =>
    "[" ++ (if negated then "^" else "") ++ String.join (ranges.map rangeExpression) ++ "]"
  | .choice alternatives =>
    match (alternativeExpressions alternatives).filter (!·.isEmpty) with
    | [] => ""
    | written => "(?:" ++ "|".intercalate written ++ ")"

def rowExpression : List Token → String
  | [] => ""
  | token :: rest => token.expression ++ rowExpression rest

def alternativeExpressions : List (List Token) → List String
  | [] => []
  | tokens :: rest => rowExpression tokens :: alternativeExpressions rest

end

/-- The expression for whole paths. -/
def expression (e : Exclusion) : String :=
  "(?-u)^" ++
    (match e.tokens with
    | [.leading] => ".*"
    | tokens => rowExpression tokens) ++ "$"

/-! ### Nesting -/

/-- The items that an expression puts in a row, and how deep they nest. -/
structure Extent where
  items : Nat
  depth : Nat
deriving DecidableEq, Repr, Inhabited

namespace Extent

/-- Items behind others. -/
def append (a b : Extent) : Extent := ⟨a.items + b.items, max a.depth b.depth⟩

/-- A row of several items is a level of its own. -/
def nesting (e : Extent) : Nat := if 1 < e.items then e.depth + 1 else e.depth

/-- A group around alternatives; several of them are a level of their own. -/
def group (alternatives : List Extent) : Extent :=
  let deepest := (alternatives.map nesting).foldl max 0
  ⟨1, if 1 < alternatives.length then deepest + 2 else deepest + 1⟩

end Extent

/-- The items that a range puts into a set. -/
def rangeItems (range : Char × Char) : Nat :=
  let first := (bytesOf range.1).length
  if range.1 = range.2 then first else first + (bytesOf range.2).length - 1

mutual

def Token.extent : Token → Extent
  | .literal c => ⟨(bytesOf c).length, 0⟩
  | .anyone => ⟨1, 0⟩
  | .anything => ⟨1, 1⟩
  | .leading | .between => ⟨1, 4⟩
  | .trailing => ⟨2, 1⟩
  | .among _ ranges => ⟨1, if 1 < (ranges.map rangeItems).sum then 2 else 1⟩
  | .choice alternatives =>
    match (alternativeExtents alternatives).filter (0 < ·.items) with
    | [] => ⟨0, 0⟩
    | extents => Extent.group extents

def rowExtent : List Token → Extent
  | [] => ⟨0, 0⟩
  | token :: rest => token.extent.append (rowExtent rest)

def alternativeExtents : List (List Token) → List Extent
  | [] => []
  | tokens :: rest => rowExtent tokens :: alternativeExtents rest

end

/-- Expressions nest at most this deep. -/
def maximalNesting : Nat := 250

/-- The expression nests too deep. Its ends are items in a row with the rest. -/
def isTooDeep (e : Exclusion) : Bool := maximalNesting < (rowExtent e.tokens).depth + 1

/-! ### How exclusions are compared -/

def Token.isLiteral : Token → Bool
  | .literal _ => true
  | _ => false

/-- A text, perhaps with stars in front of it or behind it. -/
def isText (e : Exclusion) : Bool :=
  match e.tokens with
  | .leading :: .anything :: rest | .anything :: rest => isEnd rest
  | .leading :: rest => !rest.isEmpty && rest.all Token.isLiteral
  | tokens =>
    match tokens.getLast? with
    | some .trailing => tokens.dropLast.all Token.isLiteral
    | some .anything => tokens.dropLast.all Token.isLiteral
    | some _ => tokens.all Token.isLiteral
    | none => false
where
  /-- The end of a path, and more of it than a separator. -/
  isEnd : List Token → Bool
    | [] | [.literal '/'] => false
    | rest => rest.all Token.isLiteral

/-- The last tokens are a dot and what stands for itself behind it, in one name. -/
def endsInExtension (e : Exclusion) : Bool := within e.tokens.reverse
where
  within : List Token → Bool
    | .literal c :: rest => c = '.' || (c != '/' && within rest)
    | _ => false

/-- Why exclusions that are ones by themselves cannot be compared with. -/
inductive Overdepth where
  /-- The expression compared by itself nests too deep. -/
  | single (expression : String)
  /-- So does one of those compared together, at a position among them. -/
  | together (position : Nat)
deriving DecidableEq, Repr

def Overdepth.message : Overdepth → String
  | single expression => "error parsing glob '" ++ expression ++ "': error parsing pattern 0"
  | together position => s!"error parsing pattern {position}"

/-- The first expression that nests too deep, those compared by themselves first. -/
def overdepth? (exclusions : List Exclusion) : Option Overdepth :=
  let compared := exclusions.filter (!·.isText)
  match (compared.filter endsInExtension).find? isTooDeep with
  | some e => some (.single e.expression)
  | none => ((compared.filter (!·.endsInExtension)).findIdx? isTooDeep).map .together

end PlaybookStyle.Files.Exclusion
