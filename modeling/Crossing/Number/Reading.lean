import Crossing.Number.Fixnum

/-!
# Reading numbers

Decimal text to numbers.

- `roundDecimal` is the double nearest to `digits * 10 ^ exponent`;
- `readFixnum?` reads an optional sign and decimal digits;
- `readFloat?` reads an optional sign, digits with an optional decimal point,
  and an optional exponent.
-/

namespace Crossing

/-! ## Digits -/

/-- The value of a decimal digit. -/
def digitValue? (c : Char) : Option Nat :=
  if '0' ≤ c ∧ c ≤ '9' then some (c.toNat - '0'.toNat) else none

def isDigit (c : Char) : Bool := (digitValue? c).isSome

/-- The number written by decimal digits; other characters count as zeros. -/
def digitsValue (cs : List Char) : Nat :=
  cs.foldl (fun n c => 10 * n + (digitValue? c).getD 0) 0

/-- The value of a hexadecimal digit of either case. -/
def hexValue? (c : Char) : Option Nat :=
  if '0' ≤ c ∧ c ≤ '9' then some (c.toNat - '0'.toNat)
  else if 'a' ≤ c ∧ c ≤ 'f' then some (c.toNat - 'a'.toNat + 10)
  else if 'A' ≤ c ∧ c ≤ 'F' then some (c.toNat - 'A'.toNat + 10)
  else none

/-! ## Rounding -/

/-- The double nearest to `± digits * 10 ^ exponent`. Exponents far outside the
range of doubles are cut short, which leaves the result the same. -/
def roundDecimal (negative : Bool) (digits : Nat) (exponent : Int) : Float :=
  let size : Int := (Nat.toDigits 10 digits).length
  let magnitude : Float :=
    if digits = 0 then 0.0
    else if 310 < size + exponent then 1.0 / 0.0
    else if size + exponent < -330 then 0.0
    else Float.ofScientific digits (decide (exponent < 0)) exponent.natAbs
  if negative then -magnitude else magnitude

/-! ## Tokens -/

/-- Splits off a leading sign. The flag says whether it is a minus. -/
def splitSign : List Char → Bool × List Char
  | '-' :: cs => (true, cs)
  | '+' :: cs => (false, cs)
  | cs => (false, cs)

/-- Reads a whole token as a fixnum. -/
def readFixnum? (token : List Char) : Option Fixnum :=
  let (negative, digits) := splitSign token
  if digits ≠ [] ∧ digits.all isDigit then
    let n : Int := digitsValue digits
    Fixnum.ofInt? (if negative then -n else n)
  else none

/-- Reads what follows the mantissa of a float: nothing, or an exponent. -/
def readExponent? : List Char → Option Int
  | [] => some 0
  | c :: cs =>
    if c = 'e' ∨ c = 'E' then
      let (negative, digits) := splitSign cs
      if digits ≠ [] ∧ digits.all isDigit then
        let n : Int := digitsValue digits
        some (if negative then -n else n)
      else none
    else none

/-- Reads a whole token as a float. Digits are needed on at least one side of
the point. -/
def readFloat? (token : List Char) : Option Float :=
  let (negative, rest) := splitSign token
  let whole := rest.takeWhile isDigit
  let (fraction, rest) := match rest.dropWhile isDigit with
    | '.' :: cs => (cs.takeWhile isDigit, cs.dropWhile isDigit)
    | cs => ([], cs)
  if whole = [] ∧ fraction = [] then none
  else (readExponent? rest).map fun exponent =>
    roundDecimal negative (digitsValue (whole ++ fraction)) (exponent - fraction.length)

end Crossing
