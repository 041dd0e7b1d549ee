/-
Durations: spans of time in nanoseconds.

A duration is written as numbers with units, `1h 30m`, or as a lone zero. A
number may have a fraction as long as the span stays whole: in nanoseconds up to
minutes, in seconds from hours on. Seconds have to fit into 64 bits.
`Duration.text` shows a span in its largest unit below a minute.
-/

import PlaybookStyle.Text.Quoted
import PlaybookStyle.Text.Search
import PlaybookStyle.Source.Position

namespace PlaybookStyle

open Text

namespace Duration

/-- Why a text is no duration. Offsets count bytes. -/
inductive Problem where
  | invalidCharacter (offset : Nat)
  | numberExpected (offset : Nat)
  /-- A unit that is not known, behind a number; no unit at all if it is empty. -/
  | unknownUnit (unit : String) (value : Nat)
  | tooLarge
  | empty
deriving DecidableEq, Repr

def Problem.message : Problem → String
  | invalidCharacter offset => s!"invalid character at {offset}"
  | numberExpected offset => s!"expected number at {offset}"
  | unknownUnit unit value =>
    if unit.isEmpty then s!"time unit needed, for example {value}sec or {value}ms"
    else
      s!"unknown time unit {quoted unit}, supported units: ns, us/µs, ms, sec, min, hours, days, weeks, months, years (and few variations)"
  | tooLarge =>
    "number is too large or cannot be represented without a lack of precision (values below 1ns are not supported)"
  | empty => "value was empty"

/-- A unit of time. -/
inductive Unit where
  | nanosecond
  | microsecond
  | millisecond
  | second
  | minute
  | hour
  | day
  | week
  | month
  | year
deriving DecidableEq, Repr

namespace Unit

def ofName? (name : String) : Option Unit :=
  if name ∈ ["nanos", "nsec", "ns"] then some nanosecond
  else if name ∈ ["usec", "us", "µs"] then some microsecond
  else if name ∈ ["millis", "msec", "ms"] then some millisecond
  else if name ∈ ["seconds", "second", "secs", "sec", "s"] then some second
  else if name ∈ ["minutes", "minute", "min", "mins", "m"] then some minute
  else if name ∈ ["hours", "hour", "hrs", "hr", "h"] then some hour
  else if name ∈ ["days", "day", "d"] then some day
  else if name ∈ ["weeks", "week", "wks", "wk", "w"] then some week
  else if name ∈ ["months", "month", "M"] then some month
  else if name ∈ ["years", "year", "yrs", "yr", "y"] then some year
  else none

/-- The length of a unit, as a number of seconds or of nanoseconds: a whole
number of the unit is multiplied by it within 64 bits. -/
def factor : Unit → Nat × Bool
  | nanosecond => (1, false)
  | microsecond => (1000, false)
  | millisecond => (1000000, false)
  | second => (1, true)
  | minute => (60, true)
  | hour => (3600, true)
  | day => (86400, true)
  | week => (86400 * 7, true)
  | month => (2630016, true)
  | year => (31557600, true)

/-- The same for a fraction of the unit; a nanosecond has none. -/
def fractionFactor? : Unit → Option (Nat × Bool)
  | nanosecond => none
  | microsecond => some (1000, false)
  | millisecond => some (1000000, false)
  | second => some (1000000000, false)
  | minute => some (60000000000, false)
  | unit => some unit.factor

end Unit

/-- Numbers stay below this. -/
def bound : Nat := Nat.pow 2 64

def nanosPerSecond : Nat := 1000000000

/-- A result within 64 bits. -/
def bounded (n : Nat) : Except Problem Nat := if n < bound then .ok n else .error .tooLarge

/-- Adds a number of seconds or of nanoseconds to a span. -/
def extend (span amount : Nat) (seconds : Bool) : Except Problem Nat := do
  let nanos ← bounded (span % nanosPerSecond + if seconds then 0 else amount)
  let total := span / nanosPerSecond + (if seconds then amount else 0) + nanos / nanosPerSecond
  if total < bound then .ok (total * nanosPerSecond + nanos % nanosPerSecond) else .error .tooLarge

/-- A fraction as numerator and denominator. -/
abbrev Fraction := Nat × Nat

/-- Adds a number with its unit to a span. -/
def add (span n : Nat) (fraction? : Option Fraction) (unit : String) : Except Problem Nat :=
  match Unit.ofName? unit with
  | none => .error (.unknownUnit unit n)
  | some u => do
    let (factor, seconds) := u.factor
    let span ← extend span (← bounded (n * factor)) seconds
    match fraction? with
    | none => return span
    | some (numerator, denominator) =>
      match u.fractionFactor? with
      | none => throw .tooLarge
      | some (factor, seconds) =>
        let product ← bounded (numerator * factor)
        if product % denominator ≠ 0 then throw .tooLarge
        else extend span (product / denominator) seconds

def isUnitLetter (c : Char) : Bool := c.isAlpha || c == 'µ'

def digit (c : Char) : Nat := c.toNat - '0'.toNat

/-- What is being read. -/
inductive Phase where
  /-- Looking for a number; `first` if none was read yet. -/
  | start (first : Bool) (offset : Nat)
  | whole (n : Nat)
  /-- Behind a point, with the place to report when no digit follows it. -/
  | decimals (n : Nat) (fraction : Fraction) (given : Bool) (place : Nat)
  | unit (n : Nat) (fraction? : Option Fraction) (letters : List Char)

/-- A digit more in a fraction. -/
def nextDecimal (fraction : Fraction) (c : Char) : Except Problem Fraction := do
  return (← bounded (fraction.1 * 10 + digit c), ← bounded (fraction.2 * 10))

/-- Reads on, character by character, adding to a span. `offset` is the place
of the next character in bytes. -/
def readFrom (span : Nat) : Phase → Nat → List Char → Except Problem Nat
  | .start first _, _, [] => if first then .error .empty else .ok span
  | .whole n, _, [] => add span n none ""
  | .decimals n fraction given place, _, [] =>
    if given then add span n (some fraction) "" else .error (.invalidCharacter place)
  | .unit n fraction? letters, _, [] => add span n fraction? (String.ofList letters.reverse)
  | .start first begun, offset, c :: rest =>
    if c.isDigit then readFrom span (.whole (digit c)) (offset + c.utf8Size) rest
    else if isBlank c then readFrom span (.start first begun) (offset + c.utf8Size) rest
    else .error (.numberExpected begun)
  | .whole n, offset, c :: rest =>
    if c.isDigit then do
      let n ← bounded (n * 10 + digit c)
      readFrom span (.whole n) (offset + c.utf8Size) rest
    else if isBlank c then readFrom span (.whole n) (offset + c.utf8Size) rest
    else if isUnitLetter c then readFrom span (.unit n none [c]) (offset + c.utf8Size) rest
    else if c == '.' then readFrom span (.decimals n (0, 1) false offset) (offset + c.utf8Size) rest
    else .error (.invalidCharacter offset)
  | .decimals n fraction given place, offset, c :: rest =>
    let next := offset + c.utf8Size
    if c.isDigit then do
      let fraction ← nextDecimal fraction c
      readFrom span (.decimals n fraction true next) next rest
    else if isBlank c then readFrom span (.decimals n fraction given next) next rest
    else if isUnitLetter c && given then readFrom span (.unit n (some fraction) [c]) next rest
    else .error (.invalidCharacter place)
  | .unit n fraction? letters, offset, c :: rest =>
    if c.isDigit then do
      let span ← add span n fraction? (String.ofList letters.reverse)
      readFrom span (.whole (digit c)) (offset + c.utf8Size) rest
    else if isBlank c then do
      let span ← add span n fraction? (String.ofList letters.reverse)
      readFrom span (.start false (offset + c.utf8Size)) (offset + c.utf8Size) rest
    else if isUnitLetter c then
      readFrom span (.unit n fraction? (c :: letters)) (offset + c.utf8Size) rest
    else .error (.invalidCharacter offset)

/-- The span that a text writes, in nanoseconds. -/
def parse (text : String) : Except Problem Nat :=
  if text = "0" then .ok 0 else readFrom 0 (.start true 0) 0 text.toList

/-- A text that was refused, as it was given. -/
structure Refusal where
  text : String
  problem : Problem
deriving DecidableEq, Repr

def Refusal.message (r : Refusal) : String :=
  s!"Invalid duration '{r.text}': {r.problem.message}"

/-- The span that a text writes between blanks. -/
def read (text : String) : Except Refusal Nat :=
  match parse (trimmed text) with
  | .ok span => .ok span
  | .error problem => .error ⟨text, problem⟩

/-! ### Showing a span -/

/-- A whole part and a fraction of `places` digits, without trailing zeros. -/
def decimalText (whole fraction places : Nat) : String :=
  if fraction = 0 then toString whole
  else
    let digits := Nat.toDigits 10 fraction
    let padded := List.replicate (places - digits.length) '0' ++ digits
    let kept := Text.trimEndOf (· == '0') padded
    s!"{whole}.{String.ofList kept}"

/-- A span in seconds or, below one, in its largest unit. -/
def text (span : Nat) : String :=
  if span ≥ 1000000000 then decimalText (span / 1000000000) (span % 1000000000) 9 ++ "s"
  else if span ≥ 1000000 then decimalText (span / 1000000) (span % 1000000) 6 ++ "ms"
  else if span ≥ 1000 then decimalText (span / 1000) (span % 1000) 3 ++ "µs"
  else toString span ++ "ns"

end Duration

end PlaybookStyle
