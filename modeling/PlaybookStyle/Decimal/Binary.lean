/-
Binary fractions: the numbers of the 64-bit binary format, and the two ways
between them and decimals.

A finite number is `mantissa * 2 ^ exponent`. Reading rounds a decimal to the
nearest such number, a tie to the even mantissa. Writing gives the fewest digits
that are nearer to the number than to any other; both are done in exact
arithmetic on natural numbers.
-/

namespace PlaybookStyle.Decimal

/-- A positive number of the format, or zero: `mantissa * 2 ^ exponent`. -/
structure Binary where
  mantissa : Nat
  exponent : Int
deriving DecidableEq, Repr

namespace Binary

/-- The least exponent of the format. -/
def leastExponent : Int := -1074

/-- The number of bits of a mantissa. -/
def precision : Nat := 53

/-- Numerator and denominator of `m * b ^ e`. -/
def ratio (m b : Nat) (e : Int) : Nat × Nat :=
  if e < 0 then (m, b.pow e.natAbs) else (m * b.pow e.natAbs, 1)

/-- The quotient rounded to the nearest natural number, a tie to the even one. -/
def roundHalfEven (num den : Nat) : Nat :=
  let q := num / den
  let r := num % den
  if 2 * r < den then q
  else if den < 2 * r then q + 1
  else if q % 2 = 0 then q else q + 1

/-- The exponent at which a quotient has a mantissa of full precision, or the
least exponent if that is greater. -/
def exponentFor (num den : Nat) : Int :=
  let guess : Int := (Nat.log2 num : Int) - (Nat.log2 den : Int) - (precision : Int)
  let fits (e : Int) : Bool :=
    let (n, d) := ratio den 2 e
    -- num / den / 2 ^ e < 2 ^ precision
    if num * d < n * Nat.pow 2 precision then true else false
  let e := if fits guess then guess else if fits (guess + 1) then guess + 1 else guess + 2
  max e leastExponent

/-- The number nearest to `digits * 10 ^ power`, or `none` when it is too large. -/
def ofDecimal (digits : Nat) (power : Int) : Option Binary :=
  if digits = 0 then some ⟨0, 0⟩
  else
    let magnitude : Int := power + (Nat.toDigits 10 digits).length
    if magnitude > 310 then none
    else if magnitude < -330 then some ⟨0, 0⟩
    else
      let (num, den) := ratio digits 10 power
      let e := exponentFor num den
      let (n, d) := ratio den 2 e
      let m := roundHalfEven (num * d) n
      let (m, e) := if m = Nat.pow 2 precision then (m / 2, e + 1) else (m, e)
      if e > 971 then none else some (if m = 0 then ⟨0, 0⟩ else ⟨m, e⟩)

/-! ### The shortest decimal -/

/-- Some decimal `n * 10 ^ k` is nearer to the number than to its neighbours:
its distance from `m * 2 ^ e` is at most half a step, on an even mantissa, or
less than that. All of it times `4 * scale`, to stay within natural numbers. -/
def isNear (b : Binary) (n : Nat) (k : Int) : Bool :=
  let (num, den) := ratio n 10 k
  let (twos, part) := ratio 1 2 b.exponent
  -- compare num / den with (4 m ± step) * twos / (4 part)
  let value := 4 * num * part
  let unit := den * twos
  let lowStep := if b.mantissa = Nat.pow 2 (precision - 1) && b.exponent > leastExponent then 1 else 2
  let low := (4 * b.mantissa - lowStep) * unit
  let high := (4 * b.mantissa + 2) * unit
  if b.mantissa % 2 = 0 then low ≤ value && value ≤ high else low < value && value < high

/-- The decimal nearest to the number among those with a power of ten. -/
def nearestAt (b : Binary) (k : Int) : Nat :=
  let (num, den) := ratio b.mantissa 2 b.exponent
  let (tens, part) := ratio 1 10 k
  roundHalfEven (num * part) (den * tens)

/-- Looks for the coarsest power of ten with a decimal near to the number. -/
def shortestFrom (b : Binary) : Nat → Int → Nat × Int
  | 0, k => (b.nearestAt k, k)
  | tries + 1, k =>
    let n := b.nearestAt k
    if n ≠ 0 && b.isNear n k then (n, k) else shortestFrom b tries (k - 1)

/-- Digits without trailing zeros, the zeros counted into the power. -/
def trimZeros : Nat → Nat → Int → Nat × Int
  | 0, n, k => (n, k)
  | fuel + 1, n, k => if n ≠ 0 ∧ n % 10 = 0 then trimZeros fuel (n / 10) (k + 1) else (n, k)

/-- The shortest decimal that reads back as the number: digits and power of ten. -/
def shortest (b : Binary) : Nat × Int :=
  let (num, den) := ratio b.mantissa 2 b.exponent
  let top : Int :=
    (Nat.toDigits 10 num).length - (Nat.toDigits 10 den).length
  let (n, k) := shortestFrom b 20 (top + 1)
  trimZeros 20 n k

end Binary

end PlaybookStyle.Decimal
