import Crossing.Border.Packing
import Crossing.Script.Answer

/-!
# Reports

How values and objects are reported. Plain data shows as it is, functions and
native objects by their names, and a handle by the structural form that its
object has at that moment.

- `Border.describe` reports a script value;
- `Host.report` reports an object of the host;
- `Value.inspect` looks at a script value from all sides.
-/

namespace Crossing

open Proc

namespace Border

/-- The text of a structural form, or the failure to get one after an
exclamation mark. -/
def formText (h : Handle) : Proc String := do
  match ← holding (formOrFailure h) with
  | .ok j => pure j.render
  | .error f => pure ("!" ++ f.message)

mutual

/-- Reports a script value. -/
def describe : Value → Proc Described
  | .null => pure .null
  | .bool b => pure (.bool b)
  | .int i => pure (.int i)
  | .float x => pure (.float x)
  | .text s => pure (.text s)
  | .list items => do
    let items ← describeAll items
    pure (.list items)
  | .object fields => do
    let fields ← describeFields fields
    pure (.object fields)
  | .handle h => do
    let form ← formText h
    pure (.handle form h.id)
  | .function c => pure (.function c.arity c.name)
  | .native name => pure (.native name)

/-- Reports some script values. -/
def describeAll : List Value → Proc (List Described)
  | [] => pure []
  | v :: vs => do
    let d ← describe v
    let ds ← describeAll vs
    pure (d :: ds)

/-- Reports some fields. -/
def describeFields : List (String × Value) → Proc (List (String × Described))
  | [] => pure []
  | (k, v) :: fields => do
    let d ← describe v
    let ds ← describeFields fields
    pure ((k, d) :: ds)

end

end Border

/-- Reports an object of the host. -/
def Host.report (o : Obj) : Proc ObjectReport := do
  let h ← heap
  let j ← structuralForm o
  pure ⟨h.print o, (h.shape o).typeName, j.map Json.render⟩

namespace Value

def bool? : Value → Option Bool
  | .bool b => some b
  | _ => none

def int? : Value → Option Fixnum
  | .int i => some i
  | _ => none

/-- A number as a float. -/
def float? : Value → Option Float
  | .float x => some x
  | .int i => some i.toFloat
  | _ => none

def text? : Value → Option String
  | .text s => some s
  | _ => none

/-- The number of items of a list. -/
def length? : Value → Option Nat
  | .list items => some items.length
  | _ => none

/-- Looks at a value from all sides. -/
def inspect (v : Value) : Inspection where
  kind := v.kind
  isNull := v.kind = .null
  bool? := v.bool?
  int? := v.int?
  float? := v.float?
  text? := v.text?
  length? := v.length?
  isHandle := v.kind = .handle
  isNative := v.kind = .native
  json := v.toJson.map Json.render

end Value

end Crossing
