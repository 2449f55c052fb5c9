import Crossing.Number.Shortest
import Crossing.Number.Fixnum

/-!
# Layout of decimals

How a decimal is written: positionally or with an exponent. Two texts of a
double are built from it, one per format.

- `plainText` never uses an exponent. A whole number shows every digit of its
  exact value and `.0`, any other finite number its shortest digits; of two
  equally near ones those of the larger magnitude.
- `jsonText` shows the shortest digits, of two equally near ones the even ones,
  positionally from `10 ^ -5` up to `10 ^ 16` and with a signed exponent outside
  of that range.
-/

namespace Crossing

namespace Decimal

/-- How many digits stand before the decimal point. -/
def point (d : Decimal) : Int := (Nat.toDigits 10 d.digits).length + d.exponent

def zeros (n : Nat) : String := String.ofList (List.replicate n '0')

/-- Digits with a decimal point and at least one digit on either side of it. -/
def positional (d : Decimal) : String :=
  let digits := Nat.toDigits 10 d.digits
  if 0 ≤ d.exponent then
    String.ofList digits ++ zeros d.exponent.toNat ++ ".0"
  else if 0 < d.point then
    String.ofList (digits.take d.point.toNat) ++ "." ++ String.ofList (digits.drop d.point.toNat)
  else
    "0." ++ zeros (-d.point).toNat ++ String.ofList digits

/-- One digit, a point and the others if there are any, and a signed exponent. -/
def scientific (d : Decimal) : String :=
  let exponent := d.point - 1
  let mantissa := match Nat.toDigits 10 d.digits with
    | [] => ""
    | [c] => String.ofList [c]
    | c :: rest => String.ofList (c :: '.' :: rest)
  mantissa ++ (if exponent < 0 then "e-" else "e+") ++ natText exponent.natAbs

end Decimal

/-! ## Texts of doubles -/

/-- Writes a sign before a magnitude. -/
def signed (x : Float) (magnitude : String) : String :=
  if isNegative x then "-" ++ magnitude else magnitude

/-- Positional text of a double, whole numbers in full. -/
def plainText (x : Float) : String :=
  if x.isNaN then "NaN"
  else if x.isInf then signed x "inf"
  else
    let b := Binary.ofFloat x
    signed x (if b.isWhole then natText b.whole ++ ".0" else (b.shortest .awayFromZero).positional)

/-- Text of a finite double in structured data. -/
def jsonText (x : Float) : String :=
  let d := (Binary.ofFloat x).shortest .toEven
  signed x (if d.digits = 0 ∨ (-5 < d.point ∧ d.point ≤ 16) then d.positional else d.scientific)

end Crossing
