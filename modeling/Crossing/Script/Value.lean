import Crossing.Script.Syntax
import Crossing.Failure

/-!
# Script values

Plain data crosses by value. Handles, functions and native objects have an
identity and are never copied.

- `Value.same` compares identities;
- `Value.toJson` turns plain data into a datum, `Value.ofJson` back;
- `Value.handles` lists the handles inside a value.
-/

namespace Crossing

/-- The script side's hold on an object of the host. The serial number tells
handles apart that were made for one object one after the other. -/
structure Handle where
  serial : Nat
  id : ObjectId
deriving DecidableEq, Repr

/-- A script function. -/
structure Callable where
  /-- Functions are the same iff their identities are. -/
  identity : Nat
  arity : Arity
  name : Option String
  body : List Step

/-- A value of script code. -/
inductive Value where
  | null
  | bool (b : Bool)
  | int (i : Fixnum)
  | float (x : Float)
  | text (s : String)
  | list (items : List Value)
  | object (fields : List (String × Value))
  | handle (h : Handle)
  | function (c : Callable)
  | native (name : String)

namespace Value

def kind : Value → Kind
  | .null => .null
  | .bool _ => .boolean
  | .int _ => .integer
  | .float _ => .float
  | .text _ => .string
  | .list _ => .list
  | .object _ => .object
  | .handle _ => .handle
  | .function _ => .function
  | .native _ => .native

/-- Identity of handles, functions and native objects. Plain data has none and
is never the same. -/
def same : Value → Value → Bool
  | .handle a, .handle b => a = b
  | .function a, .function b => a.identity = b.identity
  | .native a, .native b => a = b
  | _, _ => false

/-- Everything but null and false. -/
def isTruthy : Value → Bool
  | .null => false
  | .bool b => b
  | _ => true

/-! ## Handles inside -/

mutual

/-- The handles inside a value. -/
def handles : Value → List Handle
  | .null => []
  | .bool _ => []
  | .int _ => []
  | .float _ => []
  | .text _ => []
  | .list items => handlesIn items
  | .object fields => handlesOf fields
  | .handle h => [h]
  | .function _ => []
  | .native _ => []

/-- The handles inside some values. -/
def handlesIn : List Value → List Handle
  | [] => []
  | v :: vs => handles v ++ handlesIn vs

/-- The handles inside some fields. -/
def handlesOf : List (String × Value) → List Handle
  | [] => []
  | (_, v) :: fields => handles v ++ handlesOf fields

end

/-! ## Plain data -/

mutual

/-- The datum of plain data. The first part without one decides the failure. -/
def toJson : Value → Except Failure Json
  | .null => .ok .null
  | .bool b => .ok (.bool b)
  | .int i => .ok (.ofFixnum i)
  | .float x => match Json.ofFloat? x with
    | some j => .ok j
    | none => .error (.notFinite x)
  | .text s => .ok (.text s)
  | .list items => (toJsonIn items).map .list
  | .object fields => (toJsonOf fields).map .object
  | .handle _ => .error (.embedded .handle)
  | .function _ => .error (.embedded .function)
  | .native _ => .error (.embedded .native)

/-- The data of some values. -/
def toJsonIn : List Value → Except Failure (List Json)
  | [] => .ok []
  | v :: vs => do
    let j ← toJson v
    let js ← toJsonIn vs
    pure (j :: js)

/-- The data of some fields. -/
def toJsonOf : List (String × Value) → Except Failure (List (String × Json))
  | [] => .ok []
  | (k, v) :: fields => do
    let j ← toJson v
    let js ← toJsonOf fields
    pure ((k, j) :: js)

end

/-- A number of a datum: a fixnum if it is one, else the nearest double. -/
def ofInt (i : Int) : Value :=
  match Fixnum.ofInt? i with
  | some i => .int i
  | none => .float (Float.ofInt i)

mutual

/-- The value of a datum. -/
def ofJson : Json → Value
  | .null => .null
  | .bool b => .bool b
  | .int i => ofInt i
  | .float x _ => .float x
  | .text s => .text s
  | .list items => .list (ofJsonIn items)
  | .object fields => .object (ofJsonOf fields)

/-- The values of some data. -/
def ofJsonIn : List Json → List Value
  | [] => []
  | j :: js => ofJson j :: ofJsonIn js

/-- The values of some fields. -/
def ofJsonOf : List (String × Json) → List (String × Value)
  | [] => []
  | (k, j) :: fields => (k, ofJson j) :: ofJsonOf fields

end

end Value

end Crossing
