/-!
# Shortest decimals of doubles

The fewest decimal digits that read back as the same double, and of those the
ones nearest to it. A finite nonzero double is `mantissa * 2 ^ exponent`; every
real number in an interval around it rounds to it. For one digit, two digits and
so on, the two neighbours of the double on the grid of that many digits are
tested against the interval in exact arithmetic. The first grid with a hit
wins; of two hits the nearer one does, and of two equally near ones the one that
the format asks for.

- `Binary.ofFloat` takes a double apart;
- `Interval` is the set of reals that round to it;
- `Tie` says which of two equally near decimals is taken;
- `Binary.shortest` gives the digits as a `Decimal`.
-/

namespace Crossing

/-- The magnitude of a finite double: `mantissa * 2 ^ exponent`. -/
structure Binary where
  mantissa : Nat
  exponent : Int
  /-- The neighbour below is only half as far away as the one above. -/
  narrowBelow : Bool
deriving DecidableEq, Repr

/-- A nonnegative decimal: `digits * 10 ^ exponent`. -/
structure Decimal where
  digits : Nat
  exponent : Int
deriving DecidableEq, Repr

/-- Which of two equally near neighbours on a grid is taken. -/
inductive Tie where
  /-- The one with the even last digit. -/
  | toEven
  /-- The one of the larger magnitude. -/
  | awayFromZero
deriving DecidableEq, Repr

/-- Whether the lower one of two equally near neighbours is taken, given its
digits. -/
def Tie.takesLower : Tie → (digits : Nat) → Bool
  | .toEven, digits => digits % 2 == 0
  | .awayFromZero, _ => false

namespace Binary

/-- The magnitude of the double with the given bits, the sign bit ignored. -/
def ofBits (bits : Nat) : Binary :=
  let fraction := bits % 4503599627370496
  let field := bits / 4503599627370496 % 2048
  if field = 0 then ⟨fraction, -1074, false⟩
  else ⟨fraction + 4503599627370496, (field : Int) - 1075,
    decide (fraction = 0) && decide (1 < field)⟩

def ofFloat (x : Float) : Binary := ofBits x.toBits.toNat

end Binary

/-- Whether the sign bit of a double is set. -/
def isNegative (x : Float) : Bool := decide (9223372036854775808 ≤ x.toBits.toNat)

/-- The reals that round to a double, as multiples of one common unit
`1 / scale`: from `low` to `high` around `centre`. The ends belong to the
interval iff the mantissa is even. -/
structure Interval where
  low : Nat
  centre : Nat
  high : Nat
  scale : Nat
  closed : Bool

namespace Interval

def ofBinary (b : Binary) : Interval :=
  let up := Nat.pow 2 (b.exponent - 2).toNat
  { low := (4 * b.mantissa - (if b.narrowBelow then 1 else 2)) * up
    centre := 4 * b.mantissa * up
    high := (4 * b.mantissa + 2) * up
    scale := Nat.pow 2 (2 - b.exponent).toNat
    closed := b.mantissa % 2 == 0 }

/-- Whether `digits * 10 ^ exponent` lies in the interval. -/
def contains (i : Interval) (d : Decimal) : Bool :=
  let point := d.digits * Nat.pow 10 d.exponent.toNat * i.scale
  let unit := Nat.pow 10 (-d.exponent).toNat
  if i.closed then decide (i.low * unit ≤ point) && decide (point ≤ i.high * unit)
  else decide (i.low * unit < point) && decide (point < i.high * unit)

/-- The number `p` with `10 ^ (p - 1) ≤ centre / scale < 10 ^ p`. -/
def magnitude (i : Interval) : Int :=
  if i.scale ≤ i.centre then ((Nat.toDigits 10 (i.centre / i.scale)).length : Int)
  else 1 - ((Nat.toDigits 10 ((i.scale + i.centre - 1) / i.centre - 1)).length : Int)

/-- The largest point of the grid `10 ^ exponent` that is not above the centre. -/
def floorOn (i : Interval) (exponent : Int) : Nat :=
  i.centre * Nat.pow 10 (-exponent).toNat / (i.scale * Nat.pow 10 exponent.toNat)

/-- The grid point that stands for the centre, if one of its two neighbours on
the grid `10 ^ exponent` lies in the interval. -/
def nearest? (i : Interval) (tie : Tie) (exponent : Int) : Option Decimal :=
  let below := i.floorOn exponent
  let lower : Decimal := ⟨below, exponent⟩
  let upper : Decimal := ⟨below + 1, exponent⟩
  match i.contains lower, i.contains upper with
  | false, false => none
  | true, false => some lower
  | false, true => some upper
  | true, true =>
    let twice := 2 * i.centre * Nat.pow 10 (-exponent).toNat
    let middle := (2 * below + 1) * (i.scale * Nat.pow 10 exponent.toNat)
    if twice < middle then some lower
    else if middle < twice then some upper
    else if tie.takesLower below then some lower else some upper

/-- Searches the grids of `count`, `count + 1`, … digits, at most `fuel` of them. -/
def search (i : Interval) (tie : Tie) (magnitude : Int) : Nat → Nat → Option Decimal
  | 0, _ => none
  | fuel + 1, count =>
    match i.nearest? tie (magnitude - count) with
    | some d => some d
    | none => i.search tie magnitude fuel (count + 1)

end Interval

namespace Decimal

/-- The same number without trailing zero digits; `fuel` bounds how many go. -/
def trim : Nat → Decimal → Decimal
  | 0, d => d
  | fuel + 1, d =>
    if d.digits ≠ 0 ∧ d.digits % 10 = 0 then trim fuel ⟨d.digits / 10, d.exponent + 1⟩ else d

end Decimal

/-- The shortest decimal that rounds to the magnitude. Seventeen digits always
suffice. -/
def Binary.shortest (b : Binary) (tie : Tie) : Decimal :=
  if b.mantissa = 0 then ⟨0, 0⟩
  else
    let i := Interval.ofBinary b
    ((i.search tie i.magnitude 17 1).getD ⟨0, 0⟩).trim 17

/-- The exact integer part of the magnitude. -/
def Binary.whole (b : Binary) : Nat :=
  b.mantissa * Nat.pow 2 b.exponent.toNat / Nat.pow 2 (-b.exponent).toNat

/-- Whether the magnitude is an integer. -/
def Binary.isWhole (b : Binary) : Bool :=
  b.mantissa * Nat.pow 2 b.exponent.toNat % Nat.pow 2 (-b.exponent).toNat == 0

end Crossing
