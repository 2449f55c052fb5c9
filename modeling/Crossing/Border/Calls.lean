import Crossing.Border.Packing
import Crossing.Evaluation.Control

/-!
# Calls of the host

How script code applies functions of the host. Reserved operations are refused
before anything is packed.

- `Border.funcall` applies a function that script code has a handle of;
- `Border.call` applies the function of a name.
-/

namespace Crossing

open Proc

/-- Applies a function that the host keeps to what parcels bring. -/
def Host.invoke (function : ObjectId) (args : List Parcel) : Proc Parcel := do
  let f ← resolve function
  let objects ← receiveAll args
  let o ← apply f objects
  send o

namespace Border

/-- Has the host apply a function, the call being in progress meanwhile. -/
def callHost (function : ObjectId) (args : List Parcel) : Proc Parcel :=
  within .outbound (Host.invoke function args)

/-- Applies a host function to script values. -/
def funcall (function : Handle) (args : List Value) : Proc Value := do
  refuseForbiddenHandle function
  keeping do
    let parcels ← packAll args
    let result ← callHost function.id parcels
    unpack result

/-- Applies the host function of a name to script values. -/
def call (name : String) (args : List Value) : Proc Value := do
  let name := canonicalName name
  refuseForbidden name
  keeping do
    let function ← lookup name .symbol true
    funcall function args

/-- Has the host make a list. -/
def list (items : List Value) : Proc Value := call "list" items

/-- Has the host evaluate a form. -/
def evaluate (form : Value) : Proc Value := call "eval" [form]

end Border

end Crossing
