/-
TOML words without quotes: booleans, numbers and times.

A word is recognised as a whole. Integers fit into 64 bits, fractions are finite,
and dates are dates of the calendar; digits may be grouped by underscores.
-/

import PlaybookStyle.Text.Search
import PlaybookStyle.Yaml.Scalar

namespace PlaybookStyle.Toml

open Text (pieces)

/-! ### Numbers -/

/-- Digits of a base in groups joined by single underscores. -/
def grouped (base : Nat) (text : List Char) : Bool :=
  (pieces '_' text).all fun group => (Yaml.digits? base group).isSome

/-- The number that grouped digits write. -/
def groupedValue (base : Nat) (text : List Char) : Nat :=
  (Yaml.digits? base (text.filter (· ≠ '_'))).getD 0

def splitSign (text : List Char) : Bool × List Char :=
  match text with
  | '+' :: rest => (false, rest)
  | '-' :: rest => (true, rest)
  | text => (false, text)

/-- Decimal digits without a zero in front of others. -/
def isDecimal (text : List Char) : Bool :=
  grouped 10 text &&
    match text with
    | '0' :: _ :: _ => false
    | _ => true

/-- An integer within 64 bits; only decimal ones have a sign. -/
def isInteger (text : List Char) : Bool :=
  match text with
  | '0' :: 'x' :: digits => grouped 16 digits && groupedValue 16 digits < Nat.pow 2 63
  | '0' :: 'o' :: digits => grouped 8 digits && groupedValue 8 digits < Nat.pow 2 63
  | '0' :: 'b' :: digits => grouped 2 digits && groupedValue 2 digits < Nat.pow 2 63
  | text =>
    let (negative, digits) := splitSign text
    isDecimal digits &&
      if negative then groupedValue 10 digits ≤ Nat.pow 2 63 else groupedValue 10 digits < Nat.pow 2 63

/-- The digits of an exponent, with a sign or without. -/
def isExponent (text : List Char) : Bool := grouped 10 (splitSign text).2

/-- A fraction or an exponent behind whole digits. -/
def isFractionForm (text : List Char) : Bool :=
  let whole := text.takeWhile fun c => c.isDigit || c = '_'
  let rest := text.dropWhile fun c => c.isDigit || c = '_'
  isDecimal whole &&
    match rest with
    | '.' :: rest =>
      let part := rest.takeWhile fun c => c.isDigit || c = '_'
      grouped 10 part &&
        match rest.dropWhile fun c => c.isDigit || c = '_' with
        | [] => true
        | c :: exponent => (c = 'e' || c = 'E') && isExponent exponent
    | c :: exponent => (c = 'e' || c = 'E') && isExponent exponent
    | [] => false

/-- A floating point number; one too large for its width is refused unless it
has a minus sign. -/
def isFraction (text : List Char) : Bool :=
  let (negative, rest) := splitSign text
  if rest = "inf".toList || rest = "nan".toList then true
  else isFractionForm rest && (negative || (Yaml.fraction? (rest.filter (· ≠ '_'))).isSome)

/-! ### Times -/

/-- The number that two digits write. -/
def twoDigits? (a b : Char) : Option Nat := Yaml.digits? 10 [a, b]

def daysOfMonth (year month : Nat) : Nat :=
  if month = 2 then
    if year % 4 = 0 && (year % 100 ≠ 0 || year % 400 = 0) then 29 else 28
  else if month = 4 || month = 6 || month = 9 || month = 11 then 30
  else 31

def isDate : List Char → Bool
  | [a, b, c, d, '-', e, f, '-', g, h] =>
    match Yaml.digits? 10 [a, b, c, d], twoDigits? e f, twoDigits? g h with
    | some year, some month, some day =>
      1 ≤ month && month ≤ 12 && 1 ≤ day && day ≤ daysOfMonth year month
    | _, _, _ => false
  | _ => false

/-- Hours and minutes. -/
def isHourMinute : List Char → Bool
  | [a, b, ':', c, d] =>
    match twoDigits? a b, twoDigits? c d with
    | some hour, some minute => hour < 24 && minute < 60
    | _, _ => false
  | _ => false

/-- A time of day; leap seconds are allowed. -/
def isTime (text : List Char) : Bool :=
  isHourMinute (text.take 5) &&
    match text.drop 5 with
    | ':' :: a :: b :: rest =>
      (twoDigits? a b).any (· ≤ 60) &&
        match rest with
        | [] => true
        | '.' :: fraction => !fraction.isEmpty && fraction.all Char.isDigit
        | _ => false
    | _ => false

/-- A time of day with an offset. -/
def isOffsetTime (text : List Char) : Bool :=
  let time := text.takeWhile fun c => c.isDigit || c = ':' || c = '.'
  isTime time &&
    match text.drop time.length with
    | ['Z'] | ['z'] => true
    | '+' :: offset | '-' :: offset => isHourMinute offset
    | _ => false

/-- A date, perhaps with a time, or a time alone. -/
def isMoment (text : List Char) : Bool :=
  isTime text || isDate text ||
    (isDate (text.take 10) &&
      match text.drop 10 with
      | c :: time => (c = 'T' || c = 't' || c = ' ') && (isTime time || isOffsetTime time)
      | [] => false)

/-! ### Words -/

/-- A character that ends a word. -/
def endsWord (c : Char) : Bool :=
  c = ' ' || c = '\t' || c = '\n' || c = '\r' || c = ',' || c = ']' || c = '\x7d' || c = '#'

/-- The word at the start of a text, and the rest. A date takes the time behind
a space to itself. -/
def splitWord (text : List Char) : List Char × List Char :=
  let word := text.takeWhile (!endsWord ·)
  match text.drop word.length with
  | ' ' :: c :: rest =>
    if isDate word && c.isDigit then
      let time := (c :: rest).takeWhile (!endsWord ·)
      (word ++ ' ' :: time, (c :: rest).drop time.length)
    else (word, ' ' :: c :: rest)
  | rest => (word, rest)

end PlaybookStyle.Toml
