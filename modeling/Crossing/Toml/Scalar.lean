import Crossing.Number.Reading
import Crossing.Toml.Datum

/-!
# Scalars of TOML

Numbers, truth values, dates and times, each a token of its own. Underscores
may stand between digits. Integers have no leading zeros and may be written in
base sixteen, eight or two.

- `Toml.ofToken?` reads a token.
-/

namespace Crossing

namespace Toml

/-! ## Digits -/

/-- The digits of a run in which underscores stand only between digits. -/
def ungroup (isDigit : Char → Bool) : List Char → Option (List Char)
  | [] => none
  | [c] => if isDigit c then some [c] else none
  | c :: '_' :: cs => if isDigit c then (ungroup isDigit cs).map (c :: ·) else none
  | c :: cs => if isDigit c then (ungroup isDigit cs).map (c :: ·) else none

/-- The value of a digit in a base up to sixteen. -/
def digitIn? (base : Nat) (c : Char) : Option Nat :=
  (hexValue? c).filter (· < base)

/-- The number that digits write in a base. -/
def valueIn (base : Nat) (digits : List Char) : Nat :=
  digits.foldl (fun n c => base * n + (digitIn? base c).getD 0) 0

/-- Digits of a decimal number without leading zeros. -/
def plainDigits? (cs : List Char) : Option (List Char) :=
  match ungroup isDigit cs with
  | some ('0' :: _ :: _) => none
  | digits => digits

/-! ## Integers -/

/-- An integer in a base, without a sign. -/
def ofBase? (base : Nat) (cs : List Char) : Option Toml := do
  let digits ← ungroup (fun c => (digitIn? base c).isSome) cs
  let i ← Fixnum.ofInt? (valueIn base digits)
  pure (.int i)

/-- A decimal integer. -/
def ofDecimal? (cs : List Char) : Option Toml := do
  let (negative, cs) := splitSign cs
  let digits ← plainDigits? cs
  let n : Int := valueIn 10 digits
  let i ← Fixnum.ofInt? (if negative then -n else n)
  pure (.int i)

def ofInteger? : List Char → Option Toml
  | '0' :: 'x' :: cs => ofBase? 16 cs
  | '0' :: 'o' :: cs => ofBase? 8 cs
  | '0' :: 'b' :: cs => ofBase? 2 cs
  | cs => ofDecimal? cs

/-! ## Floats -/

/-- What stands before the first character of a kind, and what stands after it
if there is one. -/
def splitAt (p : Char → Bool) (cs : List Char) : List Char × Option (List Char) :=
  (cs.takeWhile fun c => !p c,
    match cs.dropWhile fun c => !p c with
    | [] => none
    | _ :: rest => some rest)

/-- The value of an exponent: a sign and digits. -/
def exponent? (cs : List Char) : Option Int := do
  let (negative, cs) := splitSign cs
  let digits ← ungroup isDigit cs
  let n : Int := valueIn 10 digits
  pure (if negative then -n else n)

/-- The digits of a fraction, if there is one. -/
def fraction? : Option (List Char) → Option (List Char)
  | none => some []
  | some cs => ungroup isDigit cs

/-- A float with a fraction, an exponent or both. It may not be too large. -/
def ofFloat? (cs : List Char) : Option Toml := do
  let (negative, cs) := splitSign cs
  if cs = ['i', 'n', 'f'] then pure (.float (if negative then -1.0 / 0.0 else 1.0 / 0.0))
  else if cs = ['n', 'a', 'n'] then pure (.float (0.0 / 0.0))
  else
    let (mantissa, exponent) := splitAt (fun c => c = 'e' ∨ c = 'E') cs
    let (whole, fraction) := splitAt (· = '.') mantissa
    if fraction.isNone ∧ exponent.isNone then none
    else
      let whole ← plainDigits? whole
      let fraction ← fraction? fraction
      let exponent ← match exponent with
        | none => pure 0
        | some cs => exponent? cs
      let x := roundDecimal negative (digitsValue (whole ++ fraction))
        (exponent - fraction.length)
      if x == 1.0 / 0.0 then none else pure (.float x)

/-! ## Dates and times -/

/-- The number that exactly `n` digits write. -/
def exactly? (n : Nat) (cs : List Char) : Option Nat :=
  if cs.length = n ∧ cs.all isDigit then some (digitsValue cs) else none

def isLeapYear (year : Nat) : Bool :=
  year % 4 == 0 && (year % 100 != 0 || year % 400 == 0)

def daysInMonth (year month : Nat) : Nat :=
  if month = 2 then (if isLeapYear year then 29 else 28)
  else if month = 4 ∨ month = 6 ∨ month = 9 ∨ month = 11 then 30
  else 31

/-- Whether the text is a day of the calendar. -/
def isDate (cs : List Char) : Bool :=
  match cs.drop 4 with
  | '-' :: rest => match rest.drop 2 with
    | '-' :: day => match exactly? 4 (cs.take 4), exactly? 2 (rest.take 2), exactly? 2 day with
      | some y, some m, some d =>
        decide (1 ≤ m) && decide (m ≤ 12) && decide (1 ≤ d) && decide (d ≤ daysInMonth y m)
      | _, _, _ => false
    | _ => false
  | _ => false

/-- Whether the text is a number of two digits that is not above a limit. -/
def isTwoDigits (limit : Nat) (cs : List Char) : Bool :=
  match exactly? 2 cs with
  | some n => decide (n ≤ limit)
  | none => false

/-- Whether the text is an hour and a minute. -/
def isHourMinute (cs : List Char) : Bool :=
  isTwoDigits 23 (cs.take 2) && match cs.drop 2 with
    | ':' :: minute => isTwoDigits 59 minute
    | _ => false

/-- Whether the text is a time of day, with or without a part of a second. -/
def isTime (cs : List Char) : Bool :=
  isHourMinute (cs.take 5) && match cs.drop 5 with
    | ':' :: rest => isTwoDigits 60 (rest.take 2) && match rest.drop 2 with
      | [] => true
      | '.' :: digits => !digits.isEmpty && digits.all isDigit
      | _ => false
    | _ => false

/-- Whether the text is a time of day, with or without a distance from UTC. -/
def isZonedTime (cs : List Char) : Bool :=
  match splitAt (fun c => c = 'Z' ∨ c = 'z' ∨ c = '+' ∨ c = '-') cs with
  | (time, none) => isTime time
  | (time, some zone) =>
    isTime time &&
      if cs.getLast? = some 'Z' ∨ cs.getLast? = some 'z' then zone.isEmpty
      else isHourMinute zone

/-- Whether the text is a date, a time, or both. -/
def isDateTime (cs : List Char) : Bool :=
  isTime cs || match splitAt (fun c => c = 'T' ∨ c = 't') cs with
    | (day, none) => isDate day
    | (day, some time) => isDate day && isZonedTime time

/-! ## Tokens -/

/-- The value of a token. -/
def ofToken? (cs : List Char) : Option Toml :=
  if cs = ['t', 'r', 'u', 'e'] then some (.bool true)
  else if cs = ['f', 'a', 'l', 's', 'e'] then some (.bool false)
  else if isDateTime cs then some .date
  else match ofInteger? cs with
    | some v => some v
    | none => ofFloat? cs

end Toml

end Crossing
