/-!
Decimal numerals and the range of double precision.

A numeral is read as a number of at most 64 bits times a power of ten, and both factors are rounded
to 53 significant binary digits before they are multiplied.  Digits that do not fit only count for
the power of ten, or not at all.
-/

namespace TraversalSql.Text

def maxWord64 : Nat := 18446744073709551615

/-- The number that a sequence of decimal digits denotes. -/
def digitsValue (digits : List Char) : Nat :=
  digits.foldl (fun value c => value * 10 + (c.toNat - '0'.toNat)) 0

/-- Append decimal digits to a number as long as it has at most 64 bits; the digits left over are
given back. -/
def absorb (value : Nat) : List Char → Nat × List Char
  | [] => (value, [])
  | c :: rest =>
      let next := value * 10 + (c.toNat - '0'.toNat)
      if next ≤ maxWord64 then absorb next rest else (value, c :: rest)

/-- The number of 53 significant binary digits that is nearest to a number; a tie goes to the one
whose last digit is zero. -/
def round53 (n : Nat) : Nat :=
  let unit := Nat.pow 2 (n.log2 - 52)
  let quotient := n / unit
  let excess := 2 * (n % unit)
  let up := unit < excess || (unit == excess && quotient % 2 == 1)
  (if up then quotient + 1 else quotient) * unit

/-- The least magnitude that rounds to no finite number of double precision. -/
def doubleOverflow : Nat := Nat.pow 2 1024 - Nat.pow 2 970

/-- Whether a numeral stays within the range of double precision. -/
def isFinite (whole fraction : List Char) (exponent : Int) : Bool :=
  let (value, beyond) := absorb 0 whole
  let (value, ignored) := absorb value fraction
  let scale := exponent + (beyond.length : Int) - ((fraction.length - ignored.length : Nat) : Int)
  value == 0 || scale < 0
    || (scale ≤ 308 && round53 value * round53 (Nat.pow 10 scale.toNat) < doubleOverflow)

end TraversalSql.Text
