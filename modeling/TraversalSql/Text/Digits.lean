/-!
Reading unsigned integers from text.  A number is read from left to right, so of two faults the
one that stands first in the text is reported.
-/

namespace TraversalSql.Text

/-- Why a text is not an unsigned integer below the limit. -/
inductive DigitFault where
  | empty
  | invalidDigit
  | tooLarge
deriving DecidableEq, Repr

def DigitFault.message : DigitFault → String
  | .empty => "cannot parse integer from empty string"
  | .invalidDigit => "invalid digit found in string"
  | .tooLarge => "number too large to fit in target type"

/-- The value of a digit in a base of at most sixteen. -/
def digitValue? (base : Nat) (c : Char) : Option Nat :=
  let value :=
    if '0' ≤ c ∧ c ≤ '9' then some (c.toNat - '0'.toNat)
    else if 'a' ≤ c ∧ c ≤ 'f' then some (c.toNat - 'a'.toNat + 10)
    else if 'A' ≤ c ∧ c ≤ 'F' then some (c.toNat - 'A'.toNat + 10)
    else none
  value.filter (· < base)

/-- Append the digits of a text to a number that may not pass `limit`. -/
def appendDigits (base limit : Nat) (value : Nat) : List Char → Except DigitFault Nat
  | [] => .ok value
  | c :: rest =>
      match digitValue? base c with
      | none => .error .invalidDigit
      | some digit =>
          let next := value * base + digit
          if next ≤ limit then appendDigits base limit next rest else .error .tooLarge

/-- Read digits of a base, of which there must be at least one. -/
def readDigits (base limit : Nat) : List Char → Except DigitFault Nat
  | [] => .error .empty
  | cs => appendDigits base limit 0 cs

def maxWord32 : Nat := 4294967295

/-- Read a decimal number of at most 32 bits; one plus sign may stand before the digits. -/
def readWord32 (s : String) : Except DigitFault Nat :=
  match s.toList with
  | [] => .error .empty
  | '+' :: [] => .error .invalidDigit
  | '+' :: digits => readDigits 10 maxWord32 digits
  | digits => readDigits 10 maxWord32 digits

end TraversalSql.Text
