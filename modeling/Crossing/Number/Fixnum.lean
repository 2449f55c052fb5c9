/-!
# Fixnums

Integers of both runtimes fit a signed 64-bit word. The bounds are part of the
type, so an out-of-range integer cannot be stored, and every operation that
could leave the range says so.

- `Fixnum.ofInt?` accepts exactly the integers in range;
- `Fixnum.clamp` moves an integer to the nearest one in range;
- `Fixnum.toFloat` is the nearest double.
-/

namespace Crossing

/-- An integer between `-2 ^ 63` and `2 ^ 63 - 1`. -/
structure Fixnum where
  val : Int
  inRange : -9223372036854775808 ≤ val ∧ val ≤ 9223372036854775807
deriving DecidableEq

namespace Fixnum

/-- The fixnum of value `i`, when there is one. -/
def ofInt? (i : Int) : Option Fixnum :=
  if h : -9223372036854775808 ≤ i ∧ i ≤ 9223372036854775807 then some ⟨i, h⟩ else none

/-- The fixnum nearest to `i`. -/
def clamp (i : Int) : Fixnum :=
  if h : -9223372036854775808 ≤ i ∧ i ≤ 9223372036854775807 then ⟨i, h⟩
  else if i < 0 then ⟨-9223372036854775808, by decide⟩
  else ⟨9223372036854775807, by decide⟩

def zero : Fixnum := ⟨0, by decide⟩

def one : Fixnum := ⟨1, by decide⟩

/-- A count as a fixnum; counts beyond the range stop at its end. -/
def ofNat (n : Nat) : Fixnum := clamp n

/-- The double nearest to the integer. -/
def toFloat (i : Fixnum) : Float := Float.ofInt i.val

@[simp] theorem ofInt?_val (i : Fixnum) : ofInt? i.val = some i := by
  simp [ofInt?, i.inRange]

theorem ofInt?_eq_none_iff {i : Int} :
    ofInt? i = none ↔ i < -9223372036854775808 ∨ 9223372036854775807 < i := by
  unfold ofInt?
  split <;> simp <;> omega

@[simp] theorem clamp_val (i : Fixnum) : clamp i.val = i := by
  simp [clamp, i.inRange]

@[simp] theorem val_zero : zero.val = 0 := rfl

@[simp] theorem val_one : one.val = 1 := rfl

end Fixnum

/-! ## Decimal digits of integers -/

/-- Decimal digits of a natural number, without leading zeros. -/
def natText (n : Nat) : String := String.ofList (Nat.toDigits 10 n)

/-- Decimal digits of an integer, after a minus sign if it is negative. -/
def intText (i : Int) : String :=
  if i < 0 then "-" ++ natText i.natAbs else natText i.natAbs

def Fixnum.text (i : Fixnum) : String := intText i.val

end Crossing
