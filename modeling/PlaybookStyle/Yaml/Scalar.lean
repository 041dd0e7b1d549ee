/-
What a scalar's text stands for.

Plain text is null, a boolean, an integer, a floating point number or a string,
tried in that order. Integers are written in decimal, without superfluous
zeros, or behind one of three radix marks; those that need more than 64 bits
have no value. `Number.text` is how a number is written in messages.
-/

import PlaybookStyle.Decimal.Binary

namespace PlaybookStyle.Yaml

open Decimal

/-- A number: exact, or a binary fraction with the three special values. -/
inductive Number where
  | integer (value : Int)
  | fraction (negative : Bool) (value : Binary)
  | infinity (negative : Bool)
  | notANumber
deriving DecidableEq, Repr

/-- Equality of numbers as keys: the two zeros of the binary format agree. -/
def Number.same : Number → Number → Bool
  | fraction s a, fraction t b => a == b && (s == t || a.mantissa == 0)
  | a, b => a == b

/-- Digits with a point or an exponent: positional from a hundred-thousandth up
to sixteen places, otherwise with one digit before the point. -/
def fractionText (b : Binary) : String :=
  if b.mantissa = 0 then "0.0"
  else
    let (n, k) := b.shortest
    let digits := Nat.toDigits 10 n
    let count : Int := digits.length
    let point := count + k
    let text := String.ofList
    if 0 ≤ k && point ≤ 16 then text (digits ++ List.replicate k.toNat '0') ++ ".0"
    else if 0 < point && point ≤ 16 then
      text (digits.take point.toNat) ++ "." ++ text (digits.drop point.toNat)
    else if -5 < point && point ≤ 0 then
      "0." ++ text (List.replicate (-point).toNat '0') ++ text digits
    else
      let power := toString (point - 1)
      match digits with
      | [d] => text [d] ++ "e" ++ power
      | d :: rest => text [d] ++ "." ++ text rest ++ "e" ++ power
      | [] => "0.0"

def Number.text : Number → String
  | integer value => toString value
  | fraction negative value => (if negative then "-" else "") ++ fractionText value
  | infinity negative => if negative then "-.inf" else ".inf"
  | notANumber => ".nan"

/-- What plain text stands for. -/
inductive Plain where
  | null
  | boolean (value : Bool)
  | number (value : Number)
  /-- An integer beyond the widths that have a value. -/
  | oversized (value : Int)
  | string

/-! ### Integers -/

/-- The value of a digit, in bases up to sixteen. -/
def digitValue? (c : Char) : Option Nat :=
  if c.isDigit then some (c.toNat - '0'.toNat)
  else if 'a' ≤ c ∧ c ≤ 'f' then some (c.toNat - 'a'.toNat + 10)
  else if 'A' ≤ c ∧ c ≤ 'F' then some (c.toNat - 'A'.toNat + 10)
  else none

/-- The value of one or more digits in a base. -/
def digits? (base : Nat) : List Char → Option Nat
  | [] => none
  | text => text.foldl (fun acc c => do
      let n ← acc
      let d ← digitValue? c
      if d < base then some (n * base + d) else none) (some 0)

/-- A sign, if one stands there, and the rest. -/
def splitSign : List Char → Option Char × List Char
  | '+' :: rest => (some '+', rest)
  | '-' :: rest => (some '-', rest)
  | text => (none, text)

/-- Digits with a zero in front of others; such text is a string. -/
def hasLeadingZero (text : List Char) : Bool :=
  match (splitSign text).2 with
  | '0' :: d :: rest => (d :: rest).all Char.isDigit
  | _ => false

/-- The digits behind a radix mark, or plain decimal digits. -/
def magnitude? : List Char → Option Nat
  | '0' :: 'x' :: rest => digits? 16 rest
  | '0' :: 'o' :: rest => digits? 8 rest
  | '0' :: 'b' :: rest => digits? 2 rest
  | text => if hasLeadingZero text then none else digits? 10 text

/-- The integer that a text writes. -/
def integer? (text : List Char) : Option Int :=
  match splitSign text with
  | (some '-', rest) => (magnitude? rest).map fun n => -(n : Int)
  | (_, rest) => (magnitude? rest).map fun n => (n : Int)

/-! ### Fractions -/

/-- An exponent: a mark, perhaps a sign, and digits; no text at all is zero. -/
def exponent? : List Char → Option Int
  | [] => some 0
  | e :: rest =>
    if e == 'e' || e == 'E' then
      match splitSign rest with
      | (some '-', rest) => (digits? 10 rest).map fun n => -(n : Int)
      | (_, rest) => (digits? 10 rest).map fun n => (n : Int)
    else none

/-- The decimal that an unsigned text writes: digits and power of ten. -/
def decimal? (text : List Char) : Option (Nat × Int) :=
  let whole := text.takeWhile Char.isDigit
  let rest := text.dropWhile Char.isDigit
  let (part, rest) := match rest with
    | '.' :: rest => (rest.takeWhile Char.isDigit, rest.dropWhile Char.isDigit)
    | rest => ([], rest)
  match digits? 10 (whole ++ part), exponent? rest with
  | some n, some e => some (n, e - part.length)
  | _, _ => none

/-- The floating point number that a text writes. -/
def fraction? (text : List Char) : Option Number :=
  let (sign?, rest) := splitSign text
  let negative := sign? == some '-'
  if rest ∈ [".inf", ".Inf", ".INF"].map String.toList then some (.infinity negative)
  else if text ∈ [".nan", ".NaN", ".NAN"].map String.toList then some .notANumber
  else
    match decimal? rest with
    | some (n, e) => (Binary.ofDecimal n e).map (.fraction negative)
    | none => none

/-! ### Plain text -/

def boolean? (text : String) : Option Bool :=
  if text ∈ ["true", "True", "TRUE"] then some true
  else if text ∈ ["false", "False", "FALSE"] then some false
  else none

def isNull (text : String) : Bool := text ∈ ["null", "Null", "NULL", "~"]

/-- The integers with a value, and beyond them those that are refused. -/
def classifyInteger (n : Int) : Option Plain :=
  if -(Nat.pow 2 63 : Int) ≤ n ∧ n < Nat.pow 2 64 then some (.number (.integer n))
  else if -(Nat.pow 2 127 : Int) ≤ n ∧ n < Nat.pow 2 128 then some (.oversized n)
  else none

/-- What plain text stands for; the empty text is null. -/
def Plain.ofText (text : String) : Plain :=
  if text.isEmpty || isNull text then .null
  else
    match boolean? text with
    | some b => .boolean b
    | none =>
      let chars := text.toList
      match (integer? chars).bind classifyInteger with
      | some value => value
      | none =>
        if hasLeadingZero chars then .string
        else
          match fraction? chars with
          | some n => .number n
          | none => .string

end PlaybookStyle.Yaml
