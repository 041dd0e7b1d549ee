/-
Painted text for terminals.

A style is switched on by an escape sequence before the text and off by the
reset sequence behind it. A reset inside the text would end the style early, so
the style is switched on again behind it.
-/

import PlaybookStyle.Text.Search

namespace PlaybookStyle.Output

open Text

inductive Hue where
  | black
  | red
  | green
  | yellow
  | blue
  | magenta
  | cyan
  | white
deriving DecidableEq, Repr, Inhabited

/-- A foreground color. -/
structure Color where
  hue : Hue
  bright : Bool
deriving DecidableEq, Repr, Inhabited

/-- The number of a hue in escape sequences. -/
def Hue.code : Hue → Nat
  | black => 0
  | red => 1
  | green => 2
  | yellow => 3
  | blue => 4
  | magenta => 5
  | cyan => 6
  | white => 7

def Hue.ofName? : String → Option Hue
  | "black" => some black
  | "red" => some red
  | "green" => some green
  | "yellow" => some yellow
  | "blue" => some blue
  | "magenta" => some magenta
  | "cyan" => some cyan
  | "white" => some white
  | _ => none

namespace Color

/-- The number of a color in escape sequences. -/
def code (c : Color) : Nat := if c.bright then 90 + c.hue.code else 30 + c.hue.code

/-- A name in lower case. Beyond ASCII, the Kelvin sign alone has a lower case that
is a letter of a color's name. -/
def folded (name : String) : String :=
  lower (name.map fun c => if c = '\u212a' then 'k' else c)

/-- The color that a name in any case stands for. -/
def ofName? (name : String) : Option Color :=
  match folded name with
  | "purple" => some ⟨.magenta, false⟩
  | name =>
    match dropStart? name "bright " with
    | some hue => (Hue.ofName? hue).map fun h => ⟨h, true⟩
    | none => (Hue.ofName? name).map fun h => ⟨h, false⟩

end Color

structure Style where
  color : Color
  bold : Bool
deriving DecidableEq, Repr, Inhabited

/-- The sequence that ends all styles. -/
def reset : String := "\x1b[0m"

/-- The sequence that begins a style. -/
def Style.start (s : Style) : String :=
  "\x1b[" ++ (if s.bold then "1;" else "") ++ toString s.color.code ++ "m"

/-- A text with an insertion behind every occurrence of a part. -/
def insertBehind (part insertion text : List Char) : List Char :=
  match _h : splitAround part text with
  | none => text
  | some (before, after) =>
    if part.isEmpty then text
    else before ++ part ++ insertion ++ insertBehind part insertion after
termination_by text.length
decreasing_by
  have h1 := splitAround_eq_append _h
  have h2 : 0 < part.length := by
    cases part <;> simp_all
  subst h1
  simp
  omega

/-- A text in a style. -/
def Style.paint (s : Style) (text : String) : String :=
  s.start ++
    String.ofList (insertBehind reset.toList s.start.toList text.toList) ++ reset

end PlaybookStyle.Output
