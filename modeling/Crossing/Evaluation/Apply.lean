import Crossing.Evaluation.Builtins
import Crossing.Evaluation.Evaluate

/-!
# Application

How the host applies a function object to arguments. A symbol is applied by its
function and a lambda list by its closure, but not by way of a further name.

- `Host.applyFunction` applies builtins and closures;
- `Host.application` applies any object.
-/

namespace Crossing

namespace Host

open Proc

/-- Applies an object that is a function itself. -/
def applyFunction (o : Obj) (args : List Obj) : Proc Obj := do
  let h ← heap
  match h.shape o with
  | .cell (.builtin b) => b.run args
  | .cell (.closure l) => callClosure l args
  | _ => signal (.invalidFunction (h.print o))

/-- Applies an object, or the function that it names. -/
def application (o : Obj) (args : List Obj) : Proc Obj := do
  let h ← heap
  match h.shape o with
  | .cell (.symbol ..) | .cell (.cons _ _) => do
    let f ← functionOf o
    applyFunction f args
  | _ => applyFunction o args

end Host

end Crossing
