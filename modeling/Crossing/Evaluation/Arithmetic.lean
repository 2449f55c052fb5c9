import Crossing.Evaluation.Checks

/-!
# Arithmetic of the host

Integers and floats mix: an operation on two integers is exact or overflows,
any other is done on floats. Arguments are combined from left to right, and the
first one that is no number or does not fit decides the error.

- `Number.sum`, `Number.product`, `Number.difference`, `Number.quotient`;
- `Number.isChain` compares neighbours.
-/

namespace Crossing

/-- A number of the host. -/
inductive Number where
  | int (i : Fixnum)
  | float (x : Float)

namespace Number

def toObj : Number → Obj
  | .int i => .int i
  | .float x => .float x

def toFloat : Number → Float
  | .int i => i.toFloat
  | .float x => x

/-- The number that an object is. -/
def ofObj (h : Heap) : Obj → Except Signal Number
  | .int i => .ok (.int i)
  | .float x => .ok (.float x)
  | o => .error (h.wrongType "number-or-marker-p" o)

/-- An exact result that fits. The overflow names the second operand. -/
def exact (i : Int) (second : Fixnum) : Except Signal Number :=
  match Fixnum.ofInt? i with
  | some i => .ok (.int i)
  | none => .error (.overflow second.text)

/-- An operation on integers and its counterpart on floats. -/
structure Operation where
  onInts : Int → Int → Int
  onFloats : Float → Float → Float

def addition : Operation := ⟨(· + ·), (· + ·)⟩

def subtraction : Operation := ⟨(· - ·), (· - ·)⟩

def multiplication : Operation := ⟨(· * ·), (· * ·)⟩

/-- Combines a number with the next argument. -/
def combine (h : Heap) (op : Operation) (a : Number) (o : Obj) : Except Signal Number := do
  let b ← ofObj h o
  match a, b with
  | .int i, .int j => exact (op.onInts i.val j.val) j
  | a, b => pure (.float (op.onFloats a.toFloat b.toFloat))

def sum (h : Heap) (args : List Obj) : Except Signal Number :=
  args.foldlM (combine h addition) (.int .zero)

def product (h : Heap) (args : List Obj) : Except Signal Number :=
  args.foldlM (combine h multiplication) (.int .one)

/-- The difference of the arguments; a single one is negated. -/
def difference (h : Heap) : List Obj → Except Signal Number
  | [] => .ok (.int .zero)
  | [o] => [.int .zero, o].foldlM (combine h subtraction) (.int .zero)
  | o :: args => do
    let a ← ofObj h o
    args.foldlM (combine h subtraction) a

/-! ## Division -/

/-- The quotient of integers, toward zero. It is no fixnum only when the least
fixnum is divided by minus one. -/
def divideInts (i j : Fixnum) : Except Stop Number :=
  if j.val = 0 then .error (.failure (.signal .divisionByZero))
  else match Fixnum.ofInt? (i.val.tdiv j.val) with
    | some i => .ok (.int i)
    | none => .error .trap

/-- Divides a number by the next argument. -/
def divide (h : Heap) (a : Number) (o : Obj) : Except Stop Number :=
  match a, ofObj h o with
  | _, .error s => .error (.failure (.signal s))
  | .int i, .ok (.int j) => divideInts i j
  | a, .ok b => .ok (.float (a.toFloat / b.toFloat))

/-- The first argument divided by the others, one after the other. -/
def quotient (h : Heap) (o : Obj) (args : List Obj) : Except Stop Number :=
  match ofObj h o with
  | .error s => .error (.failure (.signal s))
  | .ok a => args.foldlM (divide h) a

/-! ## Comparison -/

/-- Whether every two neighbours satisfy a test. Integers are compared as the
nearest floats. -/
def isChain (test : Float → Float → Bool) : List Number → Bool
  | a :: b :: rest => test a.toFloat b.toFloat && isChain test (b :: rest)
  | _ => true

end Number

end Crossing
